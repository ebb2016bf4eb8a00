/-
# `AmbireCrypto.JsonText` — a printed value can be read in one way only

`Value.display` is the text both exported ABI calls deal in.  Nothing here reads it:
the parser is JavaScript's on one side and `serde_json`'s on the other.  What is
proved is that there is only one thing for them to find, `display_injective`: two
values without floats never print alike, and a value printed inside a larger text
shows where it ends (`display_determined`).

The induction is over the value, and its invariant is `Unambiguous.Determined`:
what a piece of text is and where it ends, whatever follows.

* A string ends at its quote, since the escapes leave none inside (`quote_determined`).
* A number ends where the digits do; what may follow one in JSON is no digit
  (`StopsNumber`).
* Arrays and objects end at their bracket, and no value begins with one
  (`display_ne_close`), so `Lib.Unambiguous` applies.
* The first character tells the six kinds of value apart (`display_head`).

Floats are left out because of a float nothing but its text is known.  The answers
of this crate never hold one.
-/
import AmbireCrypto.Json
import AmbireCrypto.Lib.Numeral
import AmbireCrypto.Lib.Unambiguous

namespace AmbireCrypto

open Unambiguous Numeral

/-! ## Values without floats -/

/-- No float stands in the value. -/
def Value.FloatFree (v : Value) : Prop := ∀ text : String, ¬ Value.Within (.number (.float text)) v

theorem Value.FloatFree.child {x v : Value} (hv : v.FloatFree) (hx : x.Child v) : x.FloatFree :=
  fun text h => hv text (h.tail hx)

theorem Value.floatFree_of_children {v : Value} (hnode : ∀ text, v ≠ .number (.float text))
    (h : ∀ x : Value, x.Child v → x.FloatFree) : v.FloatFree := by
  intro text hin
  rcases Relation.ReflTransGen.cases_tail hin with heq | ⟨x, hin, hx⟩
  · exact hnode text heq
  · exact h x hx text hin

/-! ## Strings -/

/-- One character of a JSON string, read back with what follows it. -/
def unescape : List Char → Option (Char × List Char)
  | '\\' :: '"' :: r => some ('"', r)
  | '\\' :: '\\' :: r => some ('\\', r)
  | '\\' :: 'b' :: r => some (Char.ofNat 8, r)
  | '\\' :: 't' :: r => some (Char.ofNat 9, r)
  | '\\' :: 'n' :: r => some (Char.ofNat 10, r)
  | '\\' :: 'f' :: r => some (Char.ofNat 12, r)
  | '\\' :: 'r' :: r => some (Char.ofNat 13, r)
  | '\\' :: 'u' :: '0' :: '0' :: hi :: lo :: r =>
      some (Char.ofNat (16 * (hi.toNat - 48) + if lo.toNat < 58 then lo.toNat - 48 else lo.toNat - 87), r)
  | '\\' :: _ => none
  | '"' :: _ => none
  | c :: r => some (c, r)
  | [] => none

theorem unescape_control : ∀ {n : Nat}, n < 32 →
    Char.ofNat (16 * ((Nat.digitChar (n / 16)).toNat - 48) +
      if (Nat.digitChar (n % 16)).toNat < 58 then (Nat.digitChar (n % 16)).toNat - 48
      else (Nat.digitChar (n % 16)).toNat - 87) = Char.ofNat n := by
  have h : ∀ n : Fin 32, Char.ofNat (16 * ((Nat.digitChar (n.val / 16)).toNat - 48) +
      if (Nat.digitChar (n.val % 16)).toNat < 58 then (Nat.digitChar (n.val % 16)).toNat - 48
      else (Nat.digitChar (n.val % 16)).toNat - 87) = Char.ofNat n.val := by decide
  intro n hn
  exact h ⟨n, hn⟩

theorem unescape_escapeChar (c : Char) (r : List Char) :
    unescape (escapeChar c ++ r) = some (c, r) := by
  unfold escapeChar
  split_ifs with h₁ h₂ h₃ h₄ h₅ h₆ h₇ h₈
  · rw [h₁]
    rfl
  · rw [h₂]
    rfl
  · rw [← Char.ofNat_toNat c, h₃]
    rfl
  · rw [← Char.ofNat_toNat c, h₄]
    rfl
  · rw [← Char.ofNat_toNat c, h₅]
    rfl
  · rw [← Char.ofNat_toNat c, h₆]
    rfl
  · rw [← Char.ofNat_toNat c, h₇]
    rfl
  · show some (_, r) = some (c, r)
    rw [unescape_control h₈, Char.ofNat_toNat]
  · simp [unescape, h₂]

theorem escaped_inj : ∀ {cs ds r s : List Char},
    cs.flatMap escapeChar ++ '"' :: r = ds.flatMap escapeChar ++ '"' :: s → cs = ds ∧ r = s
  | [], [], _, _, h => ⟨rfl, (List.cons.inj h).2⟩
  | [], d :: ds, r, s, h => by
      have hread := congrArg unescape h
      rw [List.flatMap_cons, List.append_assoc, unescape_escapeChar] at hread
      cases hread
  | c :: cs, [], r, s, h => by
      have hread := congrArg unescape h
      rw [List.flatMap_cons, List.append_assoc, unescape_escapeChar] at hread
      cases hread
  | c :: cs, d :: ds, r, s, h => by
      have hread := congrArg unescape h
      rw [List.flatMap_cons, List.flatMap_cons, List.append_assoc, List.append_assoc,
        unescape_escapeChar, unescape_escapeChar] at hread
      obtain ⟨rfl, htail⟩ := Prod.mk.inj (Option.some.inj hread)
      obtain ⟨rfl, hrs⟩ := escaped_inj htail
      exact ⟨rfl, hrs⟩

theorem toList_quote (s : String) :
    (quote s).toList = '"' :: (s.toList.flatMap escapeChar ++ ['"']) := by
  rw [quote, String.toList_ofList, List.cons_append]

theorem quote_determined (s : String) :
    Determined (fun s => (quote s).toList) (fun _ => True) (fun _ => True) s := by
  intro s' _ r r' _ _ h
  simp only [toList_quote, List.cons_append, List.append_assoc, List.nil_append,
    List.cons.injEq, true_and] at h
  obtain ⟨hs, hr⟩ := escaped_inj h
  exact ⟨String.toList_injective hs, hr⟩

/-! ## Numbers -/

/-- A number ends where no digit follows. -/
def StopsNumber (r : List Char) : Prop := ∀ c t, r = c :: t → ¬ c.isDigit = true

theorem toDigits_inj {n m : Nat} (h : Nat.toDigits 10 n = Nat.toDigits 10 m) : n = m := by
  rw [← Nat.ofDigitChars_ten_toDigits (n := n), h, Nat.ofDigitChars_ten_toDigits]

theorem digits_determined {n m : Nat} {r s : List Char} (hr : StopsNumber r) (hs : StopsNumber s)
    (h : Nat.toDigits 10 n ++ r = Nat.toDigits 10 m ++ s) : n = m ∧ r = s := by
  obtain ⟨hdigits, hrs⟩ := append_inj_of_forall (fun c hc => isDigit_of_mem_toDigits hc)
    (fun c hc => isDigit_of_mem_toDigits hc) hr hs h
  exact ⟨toDigits_inj hdigits, hrs⟩

theorem toList_number (n : Number) (hn : ∀ text, n ≠ .float text) :
    (∃ k fits, n = .posInt k fits ∧ n.display.toList = Nat.toDigits 10 k) ∨
      ∃ i fits, n = .negInt i fits ∧ n.display.toList = '-' :: Nat.toDigits 10 i.natAbs := by
  cases n with
  | posInt k fits => exact Or.inl ⟨k, fits, rfl, Nat.toList_repr⟩
  | negInt i fits =>
      refine Or.inr ⟨i, fits, rfl, ?_⟩
      show i.repr.toList = _
      rw [toList_repr, if_pos fits.2]
  | float text => exact absurd rfl (hn text)

theorem toDigits_ne_minus {n : Nat} {r s : List Char} : Nat.toDigits 10 n ++ r ≠ '-' :: s := by
  intro h
  cases hd : Nat.toDigits 10 n with
  | nil => exact absurd hd Nat.toDigits_ne_nil
  | cons c cs =>
      rw [hd] at h
      have hdigit : c.isDigit = true := isDigit_of_mem_toDigits (n := n) (hd ▸ List.mem_cons_self)
      rw [(List.cons.inj h).1] at hdigit
      exact absurd hdigit (by decide)

theorem number_determined {n : Number} (hn : ∀ text, n ≠ .float text) :
    Determined (fun n => n.display.toList) (fun n => ∀ text, n ≠ .float text) StopsNumber n := by
  intro m hm r s hr hs h
  rcases toList_number n hn with ⟨k, fits, rfl, hk⟩ | ⟨i, fits, rfl, hi⟩
  · rcases toList_number m hm with ⟨k', fits', rfl, hk'⟩ | ⟨i', fits', rfl, hi'⟩
    · simp only [hk, hk'] at h
      obtain ⟨rfl, hrs⟩ := digits_determined hr hs h
      exact ⟨rfl, hrs⟩
    · simp only [hk, hi'] at h
      exact absurd h toDigits_ne_minus
  · rcases toList_number m hm with ⟨k', fits', rfl, hk'⟩ | ⟨i', fits', rfl, hi'⟩
    · simp only [hi, hk'] at h
      exact absurd h.symm toDigits_ne_minus
    · simp only [hi, hi', List.cons_append] at h
      obtain ⟨habs, hrs⟩ := digits_determined hr hs (List.cons.inj h).2
      have heq : i = i' := by
        have hlo := fits.2
        have hlo' := fits'.2
        omega
      subst heq
      exact ⟨rfl, hrs⟩

/-! ## What the first character says -/

/-- The kinds of values, as far as the first character tells them apart. -/
inductive Kind
  | null
  | bool (b : Bool)
  | number
  | string
  | array
  | object
deriving DecidableEq

def Value.kind : Value → Kind
  | .null => .null
  | .bool b => .bool b
  | .number _ => .number
  | .string _ => .string
  | .array _ => .array
  | .object _ => .object

def kindOf (c : Char) : Option Kind :=
  if c = 'n' then some .null
  else if c = 't' then some (.bool true)
  else if c = 'f' then some (.bool false)
  else if c = '"' then some .string
  else if c = '[' then some .array
  else if c = '\x7b' then some .object
  else if c.isDigit ∨ c = '-' then some .number
  else none

theorem kindOf_of_isDigit {c : Char} (h : c.isDigit = true) : kindOf c = some .number := by
  unfold kindOf
  split_ifs with h₁ h₂ h₃ h₄ h₅ h₆ h₇
  · exact absurd h (by rw [h₁]; decide)
  · exact absurd h (by rw [h₂]; decide)
  · exact absurd h (by rw [h₃]; decide)
  · exact absurd h (by rw [h₄]; decide)
  · exact absurd h (by rw [h₅]; decide)
  · exact absurd h (by rw [h₆]; decide)
  · rfl
  · exact absurd (Or.inl h) h₇

theorem displayItems_eq : ∀ items : List Value, displayItems items = items.map Value.display
  | [] => rfl
  | v :: vs => by rw [displayItems, displayItems_eq vs, List.map_cons]

/-- An entry of an object: its key, a colon, its value. -/
def entryText (e : String × Value) : List Char := (quote e.1).toList ++ ':' :: e.2.display.toList

theorem toList_displayEntries : ∀ entries : List (String × Value),
    (displayEntries entries).map String.toList = entries.map entryText
  | [] => rfl
  | e :: es => by
      rw [displayEntries, List.map_cons, toList_displayEntries es, List.map_cons, entryText,
        String.toList_append, String.toList_append, List.append_assoc]
      rfl

theorem toList_array (items : List Value) :
    (Value.array items).display.toList =
      '[' :: ([','].intercalate (items.map fun v => v.display.toList) ++ [']']) := by
  rw [Value.display, displayItems_eq, String.toList_append, String.toList_append,
    String.toList_intercalate, List.map_map]
  rfl

theorem toList_object (entries : List (String × Value)) :
    (Value.object entries).display.toList =
      '\x7b' :: ([','].intercalate (entries.map entryText) ++ ['\x7d']) := by
  rw [Value.display, String.toList_append, String.toList_append, String.toList_ofList,
    String.toList_ofList, String.toList_intercalate, toList_displayEntries]
  rfl

theorem display_head {v : Value} (hv : v.FloatFree) :
    ∃ c cs, v.display.toList = c :: cs ∧ kindOf c = some v.kind := by
  cases v with
  | null => exact ⟨'n', _, rfl, rfl⟩
  | bool b =>
      cases b with
      | false => exact ⟨'f', _, rfl, rfl⟩
      | true => exact ⟨'t', _, rfl, rfl⟩
  | number n =>
      rcases toList_number n (fun text h => hv text (h ▸ .refl)) with
        ⟨k, _, -, hk⟩ | ⟨i, _, -, hi⟩
      · cases hd : Nat.toDigits 10 k with
        | nil => exact absurd hd Nat.toDigits_ne_nil
        | cons c cs =>
            refine ⟨c, cs, hk.trans hd, kindOf_of_isDigit (isDigit_of_mem_toDigits (n := k) ?_)⟩
            exact hd ▸ List.mem_cons_self
      · exact ⟨'-', _, hi, rfl⟩
  | string s => exact ⟨'"', _, toList_quote s, rfl⟩
  | array items => exact ⟨'[', _, toList_array items, rfl⟩
  | object entries => exact ⟨'\x7b', _, toList_object entries, rfl⟩

theorem kind_eq {v w : Value} (hv : v.FloatFree) (hw : w.FloatFree) {r s : List Char}
    (h : v.display.toList ++ r = w.display.toList ++ s) : v.kind = w.kind := by
  obtain ⟨c, cs, hc, hkind⟩ := display_head hv
  obtain ⟨d, ds, hd, hkind'⟩ := display_head hw
  rw [hc, hd] at h
  rw [(List.cons.inj h).1, hkind'] at hkind
  exact (Option.some.inj hkind).symm

theorem display_ne_close {v : Value} (hv : v.FloatFree) (r s : List Char) :
    v.display.toList ++ r ≠ ']' :: s := by
  intro h
  obtain ⟨c, cs, hc, hkind⟩ := display_head hv
  rw [hc, List.cons_append] at h
  rw [(List.cons.inj h).1] at hkind
  cases hkind

/-! ## Values -/

theorem stopsNumber_cons {c : Char} (hc : c.isDigit = false) (t : List Char) :
    StopsNumber (c :: t) := by
  intro c' t' h
  rw [← (List.cons.inj h).1, hc]
  exact Bool.false_ne_true

theorem entry_determined {e : String × Value}
    (h : Determined (fun v => v.display.toList) Value.FloatFree StopsNumber e.2) :
    Determined entryText (fun e => e.2.FloatFree) StopsNumber e := by
  obtain ⟨k, v⟩ := e
  rintro ⟨k', v'⟩ hv' r s hr hs heq
  simp only [entryText, List.append_assoc, List.cons_append] at heq
  obtain ⟨rfl, htail⟩ := quote_determined k trivial trivial trivial heq
  obtain ⟨rfl, hrs⟩ := h hv' hr hs (List.cons.inj htail).2
  exact ⟨rfl, hrs⟩

theorem entryText_ne_close (e : String × Value) (r s : List Char) :
    entryText e ++ r ≠ '\x7d' :: s := by
  intro h
  rw [entryText, toList_quote] at h
  exact absurd (List.cons.inj h).1 (by decide)

/-- Inside any text, a value shows what it is and where it ends. -/
theorem display_determined (v : Value) :
    v.FloatFree → Determined (fun v => v.display.toList) Value.FloatFree StopsNumber v := by
  induction v using Value.childInduction with
  | step v ih =>
      intro hv w hw r s hr hs h
      have hkind := kind_eq hv hw h
      cases v with
      | null =>
          cases w with
          | null => exact ⟨rfl, List.append_cancel_left h⟩
          | _ => cases hkind
      | bool b =>
          cases w with
          | bool b' =>
              cases hkind
              exact ⟨rfl, List.append_cancel_left h⟩
          | _ => cases hkind
      | number n =>
          cases w with
          | number m =>
              obtain ⟨rfl, hrs⟩ := number_determined (fun text hn => hv text (hn ▸ .refl))
                (fun text hm => hw text (hm ▸ .refl)) hr hs h
              exact ⟨rfl, hrs⟩
          | _ => cases hkind
      | string t =>
          cases w with
          | string t' =>
              obtain ⟨rfl, hrs⟩ := quote_determined t trivial trivial trivial h
              exact ⟨rfl, hrs⟩
          | _ => cases hkind
      | array items =>
          cases w with
          | array items' =>
              simp only [toList_array, List.cons_append, List.append_assoc, List.cons.injEq,
                true_and, List.nil_append] at h
              obtain ⟨rfl, hrs⟩ := bracketed_inj (by decide)
                (stopsNumber_cons (by decide)) (stopsNumber_cons (by decide))
                (fun x hx r s => display_ne_close hx r s)
                (fun x hx => hv.child (.item hx))
                (fun x hx => ih x (.item hx) (hv.child (.item hx)))
                (fun y hy => hw.child (.item hy)) h
              exact ⟨rfl, hrs⟩
          | _ => cases hkind
      | object entries =>
          cases w with
          | object entries' =>
              simp only [toList_object, List.cons_append, List.append_assoc, List.cons.injEq,
                true_and, List.nil_append] at h
              obtain ⟨rfl, hrs⟩ := bracketed_inj (by decide)
                (stopsNumber_cons (by decide)) (stopsNumber_cons (by decide))
                (fun e _ r s => entryText_ne_close e r s)
                (fun e he => hv.child (.entry he))
                (fun e he => entry_determined (ih e.2 (.entry he) (hv.child (.entry he))))
                (fun e he => hw.child (.entry he)) h
              exact ⟨rfl, hrs⟩
          | _ => cases hkind

theorem display_injective {v w : Value} (hv : v.FloatFree) (hw : w.FloatFree)
    (h : v.display = w.display) : v = w := by
  have hstop : StopsNumber [] := nofun
  exact (display_determined v hv hw hstop hstop (congrArg (·.toList ++ []) h)).1

end AmbireCrypto
