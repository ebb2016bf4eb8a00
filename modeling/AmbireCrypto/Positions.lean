/-
# `AmbireCrypto.Positions` — where a value stands in its JSON

A path names a place in a JSON value.  `Shown q w path p v` says, from the
parameter and the value alone, that rendering `v` by `p` puts the rendering of `w`
by `q` at `path`: through the items of arrays, by position through a tuple's
fields, or by name.  A name that several components share shows only the last of
them.

`atPath_of_shown` and `shown_of_object` are the two directions: what is shown is
found at its path, and every object in the answer is the rendering of something
shown.  So a statement about all objects of an answer is one about the tuples of a
value, and neither needs the other's recursion.

The second direction is only about objects.  A number or a text in the answer may also
stand inside a tag, where no value of its own is shown.
-/
import AmbireCrypto.Rendering

namespace AmbireCrypto

open Traverse

/-! ## Paths -/

inductive Step
  | item (i : Nat)
  | key (k : String)

/-- What a JSON value holds at a path. -/
def Value.atPath : List Step → Value → Option Value
  | [], j => some j
  | .item i :: path, .array js => js[i]?.bind (atPath path)
  | .key k :: path, .object entries => (entries.lookup k).bind (atPath path)
  | _ :: _, _ => none

/-- Rendering `v` by `p` shows `w`, by `q`, at a path. -/
inductive Shown (q : Param) (w : DynSolValue) : List Step → Param → DynSolValue → Prop
  | here : Shown q w [] q w
  | array {p : Param} {items : List DynSolValue} {i : Nat} {v : DynSolValue} {path : List Step} :
      items[i]? = some v → Shown q w path p v → Shown q w (.item i :: path) p (.array items)
  | fixedArray {p : Param} {items : List DynSolValue} {i : Nat} {v : DynSolValue}
      {path : List Step} :
      items[i]? = some v → Shown q w path p v → Shown q w (.item i :: path) p (.fixedArray items)
  | positional {p c : Param} {fields : List DynSolValue} {i : Nat} {f : DynSolValue}
      {path : List Step} :
      allNamed p.components = false → p.components[i]? = some c → fields[i]? = some f →
      Shown q w path c f → Shown q w (.item i :: path) p (.tuple fields)
  | named {p c : Param} {fields : List DynSolValue} {i : Nat} {f : DynSolValue}
      {path : List Step} :
      allNamed p.components = true → p.components[i]? = some c → fields[i]? = some f →
      (∀ (k : Nat) (hk : k < p.components.length), i < k → p.components[k].name ≠ c.name) →
      Shown q w path c f → Shown q w (.key c.name :: path) p (.tuple fields)

theorem Shown.items {q p : Param} {w v : DynSolValue} {xs : List DynSolValue} {i : Nat}
    {path : List Step} (len : Option Nat) (hv : xs[i]? = some v) (h : Shown q w path p v) :
    Shown q w (.item i :: path) p (.ofItems xs len) := by
  cases len with
  | none => exact .array hv h
  | some k => exact .fixedArray hv h

theorem Shown.unique {q q' p : Param} {w w' v : DynSolValue} {path : List Step}
    (h : Shown q w path p v) (h' : Shown q' w' path p v) : q = q' ∧ w = w' := by
  induction h with
  | here =>
      cases h' with
      | here => exact ⟨rfl, rfl⟩
  | array hv _ ih =>
      cases h' with
      | array hv' h' =>
          cases hv.symm.trans hv'
          exact ih h'
  | fixedArray hv _ ih =>
      cases h' with
      | fixedArray hv' h' =>
          cases hv.symm.trans hv'
          exact ih h'
  | positional _ hc hf _ ih =>
      cases h' with
      | positional _ hc' hf' h' =>
          cases hc.symm.trans hc'
          cases hf.symm.trans hf'
          exact ih h'
  | @named p c fields i f path _ hc hf hlast _ ih =>
      generalize hname : c.name = name at h'
      cases h' with
      | @named _ c' _ i' f' _ _ hc' hf' hlast' h' =>
          -- both are the last component of the name
          obtain ⟨hi, hci⟩ := List.getElem?_eq_some_iff.mp hc
          obtain ⟨hi', hci'⟩ := List.getElem?_eq_some_iff.mp hc'
          have hii : i = i' := by
            rcases Nat.lt_trichotomy i i' with hlt | heq | hgt
            · exact absurd (hci' ▸ hname.symm) (hlast i' hi' hlt)
            · exact heq
            · exact absurd (hci ▸ hname) (hlast' i hi hgt)
          subst hii
          cases hc.symm.trans hc'
          cases hf.symm.trans hf'
          exact ih h'

namespace Deps

variable {D : Deps}

/-! ## What is shown is there -/

/-- The rendered fields of a tuple, one for each component and field. -/
theorem renderField_getElem {components : List Param} {fields : List DynSolValue}
    {js : List Value} (hjs : (components.zip fields).mapM D.renderField = .ok js) {i : Nat}
    {c : Param} {f : DynSolValue} (hc : components[i]? = some c) (hf : fields[i]? = some f) :
    ∃ j, js[i]? = some j ∧ D.valueToJson c f = .ok j := by
  obtain ⟨hic, rfl⟩ := List.getElem?_eq_some_iff.mp hc
  obtain ⟨hif, rfl⟩ := List.getElem?_eq_some_iff.mp hf
  have hi : i < (components.zip fields).length := by
    rw [List.length_zip]
    exact lt_min hic hif
  have hij : i < js.length := length_of_mapM_eq_ok hjs ▸ hi
  have hget := getElem_of_mapM_eq_ok hjs i hi hij
  rw [List.getElem_zip] at hget
  exact ⟨js[i], List.getElem?_eq_getElem hij, hget⟩

theorem valueToJson_getElem {p : Param} {items : List DynSolValue} {js : List Value}
    (hjs : items.mapM (D.valueToJson p) = .ok js) {i : Nat} {v : DynSolValue}
    (hv : items[i]? = some v) : ∃ j, js[i]? = some j ∧ D.valueToJson p v = .ok j := by
  obtain ⟨hi, rfl⟩ := List.getElem?_eq_some_iff.mp hv
  have hij : i < js.length := length_of_mapM_eq_ok hjs ▸ hi
  exact ⟨js[i], List.getElem?_eq_getElem hij, getElem_of_mapM_eq_ok hjs i hi hij⟩

theorem length_rendered {components : List Param} {fields : List DynSolValue} {js : List Value}
    (hlen : components.length = fields.length)
    (hjs : (components.zip fields).mapM D.renderField = .ok js) :
    components.length = js.length := by
  have h := length_of_mapM_eq_ok hjs
  rwa [List.length_zip, ← hlen, Nat.min_self] at h

theorem atPath_of_item {q p : Param} {w v : DynSolValue} {items : List DynSolValue}
    (len : Option Nat) {i : Nat} {path : List Step} {j : Value} (hv : items[i]? = some v)
    (ih : ∀ {x : Value}, D.valueToJson p v = .ok x →
      ∃ k, x.atPath path = some k ∧ D.valueToJson q w = .ok k)
    (hj : D.valueToJson p (.ofItems items len) = .ok j) :
    ∃ k, j.atPath (.item i :: path) = some k ∧ D.valueToJson q w = .ok k := by
  rw [valueToJson_ofItems] at hj
  obtain ⟨js, hjs, rfl⟩ := map_eq_ok.mp hj
  obtain ⟨x, hx, hvx⟩ := valueToJson_getElem hjs hv
  obtain ⟨k, hk, hw⟩ := ih hvx
  exact ⟨k, by rw [Value.atPath, hx, Option.bind_some, hk], hw⟩

theorem atPath_of_shown {q p : Param} {w v : DynSolValue} {path : List Step}
    (h : Shown q w path p v) : ∀ {j : Value}, D.valueToJson p v = .ok j →
      ∃ k, j.atPath path = some k ∧ D.valueToJson q w = .ok k := by
  induction h with
  | here =>
      intro j hj
      exact ⟨j, rfl, hj⟩
  | array hv _ ih =>
      intro j hj
      exact atPath_of_item none hv ih hj
  | fixedArray hv _ ih =>
      intro j hj
      exact atPath_of_item (some 0) hv ih hj
  | positional hnamed hc hf _ ih =>
      intro j hj
      rw [valueToJson_tuple] at hj
      obtain ⟨hlen, js, hjs, rfl⟩ := tupleToJson_eq_ok_iff.mp hj
      obtain ⟨x, hx, hfx⟩ := renderField_getElem hjs hc hf
      obtain ⟨k, hk, hw⟩ := ih hfx
      refine ⟨k, ?_, hw⟩
      rw [tupleShape, hnamed]
      show Value.atPath _ (.array js) = some k
      rw [Value.atPath, hx, Option.bind_some, hk]
  | named hnamed hc hf hlast _ ih =>
      intro j hj
      rw [valueToJson_tuple] at hj
      obtain ⟨hlen, js, hjs, rfl⟩ := tupleToJson_eq_ok_iff.mp hj
      obtain ⟨x, hx, hfx⟩ := renderField_getElem hjs hc hf
      obtain ⟨k, hk, hw⟩ := ih hfx
      refine ⟨k, ?_, hw⟩
      obtain ⟨hic, rfl⟩ := List.getElem?_eq_some_iff.mp hc
      obtain ⟨hij, rfl⟩ := List.getElem?_eq_some_iff.mp hx
      have hlookup := (lookup_rendered_iff (length_rendered hlen hjs)).mpr
        ⟨_, hic, hij, rfl, rfl, hlast⟩
      rw [tupleShape, hnamed]
      show Value.atPath _ (.object _) = some k
      rw [Value.atPath, hlookup, Option.bind_some, hk]

/-! ## Every object is shown -/

theorem atPath_scalar {components : List Param} {v : DynSolValue} (hv : v.Scalar) {j : Value}
    (h : Renders D components v j) (step : Step) (path : List Step)
    (es : List (String × Value)) : j.atPath (step :: path) ≠ some (.object es) := by
  intro hat
  cases h with
  | tag _ _ =>
      cases step with
      | item i => cases hat
      | key k =>
          obtain ⟨x, hx, hat⟩ := Option.bind_eq_some_iff.mp hat
          rw [SortedMap.lookup_cons_ite] at hx
          split at hx
          · cases hx
            cases path with
            | nil => cases hat
            | cons step path => cases step <;> cases hat
          · cases hx
  | array _ _ => exact hv
  | fixedArray _ _ => exact hv
  | named _ _ _ _ _ _ _ _ => exact hv
  | positional _ _ _ _ => exact hv
  | _ => cases step <;> cases hat

theorem exists_rendered_item {p : Param} {items : List DynSolValue} {js : List Value}
    (hjs : items.mapM (D.valueToJson p) = .ok js) {i : Nat} {x : Value} (hx : js[i]? = some x) :
    ∃ v, items[i]? = some v ∧ D.valueToJson p v = .ok x := by
  obtain ⟨hij, rfl⟩ := List.getElem?_eq_some_iff.mp hx
  have hi : i < items.length := (length_of_mapM_eq_ok hjs).symm ▸ hij
  exact ⟨items[i], List.getElem?_eq_getElem hi, getElem_of_mapM_eq_ok hjs i hi hij⟩

theorem exists_rendered_field {components : List Param} {fields : List DynSolValue}
    {js : List Value} (hlen : components.length = fields.length)
    (hjs : (components.zip fields).mapM D.renderField = .ok js) {i : Nat} {x : Value}
    (hx : js[i]? = some x) :
    ∃ c f, components[i]? = some c ∧ fields[i]? = some f ∧ D.valueToJson c f = .ok x := by
  obtain ⟨hij, rfl⟩ := List.getElem?_eq_some_iff.mp hx
  have hic : i < components.length := (length_rendered hlen hjs).symm ▸ hij
  have hif : i < fields.length := hlen ▸ hic
  obtain ⟨x, hx, hfield⟩ := renderField_getElem hjs (List.getElem?_eq_getElem hic)
    (List.getElem?_eq_getElem hif)
  rw [List.getElem?_eq_getElem hij] at hx
  cases hx
  exact ⟨_, _, List.getElem?_eq_getElem hic, List.getElem?_eq_getElem hif, hfield⟩

/-- An object in the answer is the rendering of something shown there. -/
theorem shown_of_object : ∀ (path : List Step) {p : Param} {v : DynSolValue} {j : Value}
    {es : List (String × Value)}, D.valueToJson p v = .ok j → j.atPath path = some (.object es) →
      ∃ q w, Shown q w path p v ∧ D.valueToJson q w = .ok (.object es)
  | [], p, v, j, es, hj, hat => by
      cases hat
      exact ⟨p, v, .here, hj⟩
  | step :: path, p, v, j, es, hj, hat => by
      cases v using DynSolValue.nodeInduction with
      | scalar v hv => exact absurd hat (atPath_scalar hv (renders_of_ok v hj) step path es)
      | items items len _ =>
          rw [valueToJson_ofItems] at hj
          obtain ⟨js, hjs, rfl⟩ := map_eq_ok.mp hj
          cases step with
          | key k => cases hat
          | item i =>
              obtain ⟨x, hx, hat⟩ := Option.bind_eq_some_iff.mp hat
              obtain ⟨w, hw, hwx⟩ := exists_rendered_item hjs hx
              obtain ⟨q, u, hshown, hu⟩ := shown_of_object path hwx hat
              exact ⟨q, u, .items len hw hshown, hu⟩
      | tuple fields _ =>
          rw [valueToJson_tuple] at hj
          obtain ⟨hlen, js, hjs, rfl⟩ := tupleToJson_eq_ok_iff.mp hj
          simp only [tupleShape] at hat
          cases hnamed : allNamed p.components with
          | false =>
              rw [hnamed] at hat
              cases step with
              | key k => cases hat
              | item i =>
                  obtain ⟨x, hx, hat⟩ := Option.bind_eq_some_iff.mp hat
                  obtain ⟨c, f, hc, hf, hfx⟩ := exists_rendered_field hlen hjs hx
                  obtain ⟨q, u, hshown, hu⟩ := shown_of_object path hfx hat
                  exact ⟨q, u, .positional hnamed hc hf hshown, hu⟩
          | true =>
              rw [hnamed] at hat
              cases step with
              | item i => cases hat
              | key k =>
                  obtain ⟨x, hx, hat⟩ := Option.bind_eq_some_iff.mp hat
                  obtain ⟨i, hic, hij, rfl, rfl, hlast⟩ :=
                    (lookup_rendered_iff (length_rendered hlen hjs)).mp hx
                  obtain ⟨c, f, hc, hf, hfx⟩ :=
                    exists_rendered_field hlen hjs (List.getElem?_eq_getElem hij)
                  obtain ⟨q, u, hshown, hu⟩ := shown_of_object path hfx hat
                  rw [List.getElem?_eq_getElem hic] at hc
                  cases hc
                  exact ⟨q, u, .named hnamed (List.getElem?_eq_getElem hic) hf hlast hshown, hu⟩

end Deps

end AmbireCrypto
