/-
# `AmbireCrypto.StringDecoderPatch` — the post-generate patch

The script that takes the `TextDecoder` check out of the generated bindings.  It
works by searching: three tests on the whole file, two anchors, one test on the
block between them.  `main_cases` says once what a run can do, and the rest is read
off it.

A run that exits with 0 is meant to leave no check behind.  It does where the check
stands nowhere but in the block, which no test looks at: the tests on the file ask
whether the check is there, not whether it is elsewhere, and a file with the marker
is not tested at all.  `patch_accounted_iff` is the exact condition.

## What is proved

`Accounted` is what a run is meant to do.  It does exactly one of three things — refuse
and leave the file alone, find the marker and leave it alone, or replace the block and
nothing else; after an exit with 0 there is no check in the file; and another run then
changes nothing.  `Expected` is the condition on the bytes of the file, and the two are
equivalent.

That the replacement brings a marker but no check, and stands in the new file in one place
only, are facts about its text and that of the check (`replacement_facts`), from which
`Lib.TextSearch` makes statements about all files.

## How a file is read

A file is its bytes and what the script sees is their text (`Lib.Utf8Lossy`), the
characters of which stand for the code units of the script's strings: every anchor is
ASCII, so a match or a cut never falls inside a pair of them.  Bytes outside the block
that are no UTF-8 are written back as something else, so they count against the script.
Failures of the file system are left out.
-/
import AmbireCrypto.Lib.TextSearch
import AmbireCrypto.Lib.Utf8Lossy

namespace AmbireCrypto.StringDecoderPatch

open TextSearch Utf8Lossy

/-! ## The script -/

def DECODER_START : List Char :=
  "  const decoder: \x7b decode(input: UniffiByteArray): string \x7d =".toList

def RETURN_START : List Char := "  return \x7b".toList

def TEXT_DECODER_CHECK : List Char := "typeof TextDecoder !== 'undefined'".toList

def NATIVE_HELPER : List Char := "ubrn_uniffi_internal_fn_func_ffi__string_from_buffer".toList

def PATCH_MARKER : List Char := "PATCHED by scripts/forceNativeStringDecoder.js".toList

def REPLACEMENT : List Char :=
  "  // ".toList ++ PATCH_MARKER ++ ": always use the C++ decoder.\n".toList ++
  "  // ubrn's template prefers a global TextDecoder, but this app polyfills that in\n".toList ++
  "  // JS, which decodes every string Rust returns byte-by-byte on the JS thread.\n".toList ++
  "  const decoder: \x7b decode(input: UniffiByteArray): string \x7d = \x7b\n".toList ++
  "    decode: (bytes: UniffiByteArray) =>\n".toList ++
  "      nativeModule().".toList ++ NATIVE_HELPER ++ "(bytes, undefined as any) as string\n".toList ++
  "  \x7d\n".toList

/-- What a run leaves behind: its exit code, the file, and what it printed. -/
structure Run where
  exitCode : Nat
  file : Option (List UInt8)
  log : List String
  errors : List String

/-- `process.exit(1)` after a message. -/
def fail (file : Option (List UInt8)) (message : String) : Run :=
  ⟨1, file, [],
    ["[forceNativeStringDecoder] " ++ message,
      "[forceNativeStringDecoder] Re-check ubrn's StringHelperTemplate.ts and update this script."]⟩

def alreadyApplied (bytes : List UInt8) : Run :=
  ⟨0, some bytes, ["[forceNativeStringDecoder] already applied, nothing to do."], []⟩

def patched (before after : List Char) : Run :=
  ⟨0, some (encode (before ++ REPLACEMENT ++ after)),
    ["[forceNativeStringDecoder] patched: Rust strings now decode in C++."], []⟩

section Script

variable (generatedFile : String)

def main (file : Option (List UInt8)) : Run :=
  match file with
  | none =>
      fail none ("generated file not found at " ++ generatedFile ++
        "; run the ubrn generate step first.")
  | some bytes =>
      let source := decode bytes
      if includes source PATCH_MARKER then alreadyApplied bytes
      else if ¬ includes source TEXT_DECODER_CHECK then
        fail file "the TextDecoder check this patch removes is no longer in the generated bindings."
      else if ¬ includes source NATIVE_HELPER then
        fail file ("the C++ helper " ++ String.ofList NATIVE_HELPER ++
          " is no longer in the generated bindings.")
      else
        match indexOf source DECODER_START with
        | none => fail file "could not find the string decoder declaration."
        | some start =>
            match indexOfFrom source RETURN_START start with
            | none => fail file "could not find the end of the string converter block."
            | some stop =>
                let block := slice source start stop
                if ¬ includes block TEXT_DECODER_CHECK then
                  fail file "the TextDecoder check is no longer inside the decoder declaration."
                else patched (source.take start) (source.drop stop)

end Script

/-! ## What a run can do -/

/-- The block between the anchors: from the first declaration to the first `return`
behind it. -/
structure Marks (source before block after : List Char) : Prop where
  source_eq : source = before ++ block ++ after
  start_eq : indexOf source DECODER_START = some before.length
  stop_eq : indexOfFrom source RETURN_START before.length = some (before ++ block).length

/-- The text passes every test. -/
structure Patches (source before block after : List Char) : Prop
    extends Marks source before block after where
  unmarked : includes source PATCH_MARKER = false
  helper : includes source NATIVE_HELPER = true
  check : includes block TEXT_DECODER_CHECK = true

theorem Marks.unique {source before block after before' block' after' : List Char}
    (h : Marks source before block after) (h' : Marks source before' block' after') :
    before = before' ∧ block = block' ∧ after = after' := by
  have hstart : before.length = before'.length :=
    Option.some.inj (h.start_eq.symm.trans h'.start_eq)
  have hstop : (before ++ block).length = (before' ++ block').length := by
    have hstop' := h'.stop_eq
    rw [← hstart] at hstop'
    exact Option.some.inj (h.stop_eq.symm.trans hstop')
  obtain ⟨hfront, hafter⟩ := List.append_inj (h.source_eq.symm.trans h'.source_eq) hstop
  obtain ⟨hbefore, hblock⟩ := List.append_inj hfront hstart
  exact ⟨hbefore, hblock, hafter⟩

theorem marks_of_indexOf {source : List Char} {start stop : Nat}
    (hstart : indexOf source DECODER_START = some start)
    (hstop : indexOfFrom source RETURN_START start = some stop) :
    Marks source (source.take start) (slice source start stop) (source.drop stop) := by
  have hle := (drop_of_indexOf hstart).1
  obtain ⟨hle', hlen⟩ := le_of_indexOfFrom hle hstop
  have hbefore : (source.take start).length = start := List.length_take_of_le hle
  have hsource : source.take start ++ slice source start stop ++ source.drop stop = source :=
    slice_append hle'
  refine ⟨hsource.symm, by rw [hbefore]; exact hstart, ?_⟩
  have hfront : (source.take start ++ slice source start stop).length = stop := by
    have hall := congrArg List.length hsource
    rw [List.length_append, List.length_drop] at hall
    omega
  rw [hbefore, hfront]
  exact hstop

theorem Patches.includes_check {source before block after : List Char}
    (h : Patches source before block after) : includes source TEXT_DECODER_CHECK = true := by
  refine includes_iff.mpr ((includes_iff.mp h.check).trans ?_)
  rw [h.source_eq]
  exact List.infix_append before block after

section Cases

variable {generatedFile : String} {bytes : List UInt8} {before block after : List Char}

theorem main_of_marker (h : includes (decode bytes) PATCH_MARKER = true) :
    main generatedFile (some bytes) = alreadyApplied bytes := by
  simp only [main, h, ↓reduceIte]

theorem main_of_patches (h : Patches (decode bytes) before block after) :
    main generatedFile (some bytes) = patched before after := by
  have hbefore : (decode bytes).take before.length = before := by
    rw [h.source_eq, List.append_assoc, List.take_left]
  have hafter : (decode bytes).drop (before ++ block).length = after := by
    rw [h.source_eq, List.drop_left]
  have hblock : slice (decode bytes) before.length (before ++ block).length = block := by
    rw [h.source_eq, slice_of_append]
  simp only [main, h.unmarked, h.includes_check, h.helper, h.start_eq, h.stop_eq, hbefore, hafter,
    hblock, h.check, not_true_eq_false, Bool.false_eq_true, ↓reduceIte]

theorem main_of_not_patches (hmarker : includes (decode bytes) PATCH_MARKER = false)
    (h : ∀ before block after, ¬ Patches (decode bytes) before block after) :
    ∃ message, main generatedFile (some bytes) = fail (some bytes) message := by
  simp only [main, hmarker, Bool.false_eq_true, ↓reduceIte]
  split
  · exact ⟨_, rfl⟩
  · split
    · exact ⟨_, rfl⟩
    · rename_i hhelper
      split
      · exact ⟨_, rfl⟩
      · rename_i start hstart
        split
        · exact ⟨_, rfl⟩
        · rename_i stop hstop
          have hmarks := marks_of_indexOf hstart hstop
          refine ⟨_, if_pos fun hcheck => h _ _ _ ⟨hmarks, hmarker, ?_, hcheck⟩⟩
          exact not_not.mp hhelper

/-- A run finds the marker, patches, or fails. -/
theorem main_cases (generatedFile : String) (bytes : List UInt8) :
    (includes (decode bytes) PATCH_MARKER = true ∧
      main generatedFile (some bytes) = alreadyApplied bytes) ∨
    (∃ before block after, Patches (decode bytes) before block after ∧
      main generatedFile (some bytes) = patched before after) ∨
    includes (decode bytes) PATCH_MARKER = false ∧
      (∀ before block after, ¬ Patches (decode bytes) before block after) ∧
      ∃ message, main generatedFile (some bytes) = fail (some bytes) message := by
  cases hmarker : includes (decode bytes) PATCH_MARKER with
  | true => exact Or.inl ⟨rfl, main_of_marker hmarker⟩
  | false =>
      by_cases h : ∃ before block after, Patches (decode bytes) before block after
      · obtain ⟨before, block, after, h⟩ := h
        exact Or.inr (Or.inl ⟨before, block, after, h, main_of_patches h⟩)
      · have hnone : ∀ before block after, ¬ Patches (decode bytes) before block after :=
          fun before block after hp => h ⟨before, block, after, hp⟩
        exact Or.inr (Or.inr ⟨rfl, hnone, main_of_not_patches hmarker hnone⟩)

end Cases

/-! ## The replacement

What it brings into a file, and that it can be told from what was there. -/

/-- About the texts themselves, by looking at them. -/
theorem replacement_facts :
    includes REPLACEMENT PATCH_MARKER = true ∧ includes REPLACEMENT TEXT_DECODER_CHECK = false ∧
    TEXT_DECODER_CHECK.length ≤ REPLACEMENT.length ∧
    NoOverlap TEXT_DECODER_CHECK REPLACEMENT ∧ NoOverlap REPLACEMENT TEXT_DECODER_CHECK ∧
    NoOverlap (encode REPLACEMENT).tail (encode REPLACEMENT) ∧
    REPLACEMENT.head? = some ' ' := by
  decide +kernel

theorem marker_infix_replacement : PATCH_MARKER <:+: REPLACEMENT := by
  obtain ⟨hmarker, -⟩ := replacement_facts
  exact includes_iff.mp hmarker

/-- Patching leaves the checks outside the block, and makes none. -/
theorem check_patched_iff {before after : List Char} :
    includes (before ++ REPLACEMENT ++ after) TEXT_DECODER_CHECK = true ↔
      includes before TEXT_DECODER_CHECK = true ∨ includes after TEXT_DECODER_CHECK = true := by
  obtain ⟨-, hnone, hlen, hleft, hright, -, -⟩ := replacement_facts
  have hreplacement : ¬ TEXT_DECODER_CHECK <:+: REPLACEMENT := by
    rw [← includes_iff, hnone]
    exact Bool.false_ne_true
  rw [includes_iff, includes_iff, includes_iff,
    infix_sandwich_iff (hleft.append hlen after) hright, or_iff_right hreplacement]

theorem marker_patched (before after : List Char) :
    includes (decode (encode (before ++ REPLACEMENT ++ after))) PATCH_MARKER = true := by
  rw [decode_encode]
  exact includes_iff.mpr (marker_infix_replacement.trans (List.infix_append _ _ _))

/-- The bytes of the replacement are in no text without the marker. -/
theorem not_infix_encode {text : List Char} (h : ¬ PATCH_MARKER <:+: text) :
    ¬ encode REPLACEMENT <:+: encode text := by
  obtain ⟨-, -, -, -, -, -, hhead⟩ := replacement_facts
  obtain ⟨rest, hrest⟩ := List.head?_eq_some_iff.mp hhead
  rintro ⟨front, back, heq⟩
  have hdecode := congrArg decode heq
  rw [hrest, decode_sandwich (by decide), decode_encode, ← hrest] at hdecode
  exact h (marker_infix_replacement.trans ⟨_, _, hdecode⟩)

/-- What was replaced is what stands between the bytes of the two sides. -/
theorem replaced_iff {bytes : List UInt8} {before block after : List Char}
    (h : Patches (decode bytes) before block after) :
    (∃ front old back, bytes = front ++ old ++ back ∧
      encode (before ++ REPLACEMENT ++ after) = front ++ encode REPLACEMENT ++ back) ↔
      ∃ old, bytes = encode before ++ old ++ encode after := by
  have hunmarked : ¬ PATCH_MARKER <:+: decode bytes := by
    rw [← includes_iff, h.unmarked]
    exact Bool.false_ne_true
  have hbefore : ¬ PATCH_MARKER <:+: before := fun hin => hunmarked (by
    rw [h.source_eq, List.append_assoc]
    exact hin.trans List.infix_append_left)
  have hafter : ¬ PATCH_MARKER <:+: after := fun hin => hunmarked (by
    rw [h.source_eq]
    exact hin.trans List.infix_append_right)
  rw [encode_append, encode_append]
  constructor
  · rintro ⟨front, old, back, hbytes, hout⟩
    obtain ⟨-, -, -, -, -, hself, -⟩ := replacement_facts
    obtain ⟨rfl, rfl⟩ := sandwich_unique hself (not_infix_encode hbefore) (not_infix_encode hafter) hout
    exact ⟨old, hbytes⟩
  · rintro ⟨old, hbytes⟩
    exact ⟨_, old, _, hbytes, rfl⟩

/-! ## What a run is meant to do -/

def ExactlyOne (p q r : Prop) : Prop := (p ∧ ¬ q ∧ ¬ r) ∨ (¬ p ∧ q ∧ ¬ r) ∨ (¬ p ∧ ¬ q ∧ r)

def Refused (bytes : List UInt8) (run : Run) : Prop := run.exitCode = 1 ∧ run.file = some bytes

def FoundMarker (bytes : List UInt8) (run : Run) : Prop :=
  run.exitCode = 0 ∧ run.file = some bytes ∧ includes (decode bytes) PATCH_MARKER = true

/-- One block of an unmarked file replaced, and everything around it kept. -/
def Replaced (bytes : List UInt8) (run : Run) : Prop :=
  run.exitCode = 0 ∧ includes (decode bytes) PATCH_MARKER = false ∧
    ∃ front old back, bytes = front ++ old ++ back ∧
      run.file = some (front ++ encode REPLACEMENT ++ back)

/-- A run does one of three things, and if it exits with 0 leaves a file without the
check, which a second run leaves alone. -/
structure Accounted (generatedFile : String) (bytes : List UInt8) : Prop where
  outcome : ExactlyOne (Refused bytes (main generatedFile (some bytes)))
    (FoundMarker bytes (main generatedFile (some bytes)))
    (Replaced bytes (main generatedFile (some bytes)))
  clean : (main generatedFile (some bytes)).exitCode = 0 →
    ∀ out, (main generatedFile (some bytes)).file = some out →
      includes (decode out) TEXT_DECODER_CHECK = false
  again : (main generatedFile (some bytes)).exitCode = 0 →
    ∀ out, (main generatedFile (some bytes)).file = some out →
      (main generatedFile (some out)).exitCode = 0 ∧ (main generatedFile (some out)).file = some out

/-- The check stands nowhere a run would leave it: not beside the marker, and not
outside a block that is replaced.  What is outside that block is UTF-8. -/
structure Expected (bytes : List UInt8) : Prop where
  marked : includes (decode bytes) PATCH_MARKER = true →
    includes (decode bytes) TEXT_DECODER_CHECK = false
  outside : ∀ before block after, Patches (decode bytes) before block after →
    includes before TEXT_DECODER_CHECK = false ∧ includes after TEXT_DECODER_CHECK = false ∧
      ∃ old, bytes = encode before ++ old ++ encode after

section Accounting

variable {generatedFile : String} {bytes : List UInt8} {before block after : List Char}

theorem main_again {out : List UInt8} (h : includes (decode out) PATCH_MARKER = true) :
    (main generatedFile (some out)).exitCode = 0 ∧
      (main generatedFile (some out)).file = some out := by
  rw [main_of_marker h]
  exact ⟨rfl, rfl⟩

theorem accounted_iff_of_run {run : Run} (hrun : main generatedFile (some bytes) = run) :
    Accounted generatedFile bytes ↔
      ExactlyOne (Refused bytes run) (FoundMarker bytes run) (Replaced bytes run) ∧
      (run.exitCode = 0 → ∀ out, run.file = some out →
        includes (decode out) TEXT_DECODER_CHECK = false ∧
          (main generatedFile (some out)).exitCode = 0 ∧
          (main generatedFile (some out)).file = some out) := by
  subst hrun
  constructor
  · intro h
    exact ⟨h.outcome, fun h₀ out hout => ⟨h.clean h₀ out hout, h.again h₀ out hout⟩⟩
  · intro h
    exact ⟨h.1, fun h₀ out hout => (h.2 h₀ out hout).1, fun h₀ out hout => (h.2 h₀ out hout).2⟩

theorem accounted_of_fail {message : String}
    (hrun : main generatedFile (some bytes) = fail (some bytes) message) :
    Accounted generatedFile bytes := by
  refine (accounted_iff_of_run hrun).mpr ⟨Or.inl ⟨⟨rfl, rfl⟩, ?_, ?_⟩, ?_⟩
  · intro h
    exact Nat.one_ne_zero h.1
  · intro h
    exact Nat.one_ne_zero h.1
  · intro h
    exact absurd h Nat.one_ne_zero

theorem accounted_of_marker_iff (hmarker : includes (decode bytes) PATCH_MARKER = true) :
    Accounted generatedFile bytes ↔ includes (decode bytes) TEXT_DECODER_CHECK = false := by
  rw [accounted_iff_of_run (main_of_marker hmarker)]
  constructor
  · intro h
    exact (h.2 rfl bytes rfl).1
  · intro hclean
    refine ⟨Or.inr (Or.inl ⟨?_, ⟨rfl, rfl, hmarker⟩, ?_⟩), ?_⟩
    · intro h
      exact Nat.zero_ne_one h.1
    · intro h
      rw [h.2.1] at hmarker
      cases hmarker
    · intro _ out hout
      cases hout
      exact ⟨hclean, main_again hmarker⟩

theorem accounted_of_patches_iff (h : Patches (decode bytes) before block after) :
    Accounted generatedFile bytes ↔
      includes before TEXT_DECODER_CHECK = false ∧ includes after TEXT_DECODER_CHECK = false ∧
        ∃ old, bytes = encode before ++ old ++ encode after := by
  have hclean : includes (decode (encode (before ++ REPLACEMENT ++ after))) TEXT_DECODER_CHECK = false ↔
      includes before TEXT_DECODER_CHECK = false ∧ includes after TEXT_DECODER_CHECK = false := by
    rw [decode_encode, Bool.eq_false_iff, Bool.eq_false_iff, Bool.eq_false_iff, ne_eq,
      check_patched_iff, not_or]
  have hunmarked : ¬ includes (decode bytes) PATCH_MARKER = true := by
    rw [h.unmarked]
    exact Bool.false_ne_true
  rw [accounted_iff_of_run (main_of_patches h), ← and_assoc, ← hclean, ← replaced_iff h]
  constructor
  · rintro ⟨hone, hout⟩
    refine ⟨(hout rfl _ rfl).1, ?_⟩
    rcases hone with ⟨hrefused, -, -⟩ | ⟨-, hfound, -⟩ | ⟨-, -, hreplaced⟩
    · exact absurd hrefused.1 Nat.zero_ne_one
    · exact absurd hfound.2.2 hunmarked
    · obtain ⟨-, -, front, old, back, hbytes, hfile⟩ := hreplaced
      exact ⟨front, old, back, hbytes, Option.some.inj hfile⟩
  · rintro ⟨hcheck, front, old, back, hbytes, hfile⟩
    have hreplaced : Replaced bytes (patched before after) :=
      ⟨rfl, h.unmarked, front, old, back, hbytes, congrArg some hfile⟩
    refine ⟨Or.inr (Or.inr ⟨?_, ?_, hreplaced⟩), ?_⟩
    · intro hrefused
      exact Nat.zero_ne_one hrefused.1
    · intro hfound
      exact hunmarked hfound.2.2
    · intro _ out hout
      cases hout
      exact ⟨hcheck, main_again (marker_patched before after)⟩

end Accounting

/-- A run does what it is meant to exactly on the files that are as expected. -/
theorem patch_accounted_iff (generatedFile : String) (bytes : List UInt8) :
    Accounted generatedFile bytes ↔ Expected bytes := by
  rcases main_cases generatedFile bytes with ⟨hmarker, -⟩ | ⟨before, block, after, h, -⟩ |
    ⟨hmarker, hnone, message, hrun⟩
  · rw [accounted_of_marker_iff hmarker]
    constructor
    · intro hclean
      refine ⟨fun _ => hclean, fun before block after h => ?_⟩
      rw [h.unmarked] at hmarker
      cases hmarker
    · intro hexp
      exact hexp.marked hmarker
  · rw [accounted_of_patches_iff h]
    constructor
    · intro hout
      refine ⟨fun hmarker => ?_, fun before' block' after' h' => ?_⟩
      · rw [h.unmarked] at hmarker
        cases hmarker
      · obtain ⟨rfl, -, rfl⟩ := h.toMarks.unique h'.toMarks
        exact hout
    · intro hexp
      exact hexp.outside before block after h
  · refine iff_of_true (accounted_of_fail hrun) ⟨fun h => ?_, fun before block after h => ?_⟩
    · rw [hmarker] at h
      cases h
    · exact absurd h (hnone before block after)

/-! ## A check that stays -/

def earlierCheck : List Char := "const native = ".toList ++ TEXT_DECODER_CHECK ++ ['\n']

def declaration : List Char :=
  DECODER_START ++ ' ' :: TEXT_DECODER_CHECK ++ " ? new TextDecoder() : ".toList ++ NATIVE_HELPER ++
    ['\n']

/-- A template that checks twice: in the declaration, and once in front of it. -/
def checksTwice : List Char := earlierCheck ++ declaration ++ RETURN_START

theorem patches_checksTwice : Patches checksTwice earlierCheck declaration RETURN_START := by
  have htests : indexOf checksTwice DECODER_START = some earlierCheck.length ∧
      indexOfFrom checksTwice RETURN_START earlierCheck.length =
        some (earlierCheck ++ declaration).length ∧
      includes checksTwice PATCH_MARKER = false ∧ includes checksTwice NATIVE_HELPER = true ∧
      includes declaration TEXT_DECODER_CHECK = true := by
    decide +kernel
  obtain ⟨hstart, hstop, hmarker, hhelper, hcheck⟩ := htests
  exact ⟨⟨rfl, hstart, hstop⟩, hmarker, hhelper, hcheck⟩

/-- The run replaces the declaration, exits with 0, and the other check is left. -/
theorem second_check_stays :
    ¬ ∀ (generatedFile : String) (bytes : List UInt8), Accounted generatedFile bytes := by
  intro h
  have hpatches : Patches (decode (encode checksTwice)) earlierCheck declaration RETURN_START := by
    rw [decode_encode]
    exact patches_checksTwice
  obtain ⟨hclean, -, -⟩ := (accounted_of_patches_iff hpatches).mp (h "ambire_crypto.ts" _)
  have hcheck : includes earlierCheck TEXT_DECODER_CHECK = true :=
    includes_iff.mpr (List.infix_append _ _ _)
  rw [hcheck] at hclean
  cases hclean

end AmbireCrypto.StringDecoderPatch
