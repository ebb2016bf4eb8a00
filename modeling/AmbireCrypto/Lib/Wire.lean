/-
# `Lib.Wire` — tagged unions on a byte stream, and what stale readers make of them

A converter reads values off the front of a byte string and writes them; it is lawful
where what it writes is read back whatever follows.  A union is written as the ordinal
of its variant and then the fields, so a reader is no more than the list of variants
it was generated from — and need not have been generated from the list the writer
uses.

Fields have names, which are not written.  A message is the values under their names, in
the order in which they were declared, and a reader puts the names of its own
declaration to what it reads.

`readUnion_writeUnion_iff` says when a mixed pair is harmless: a reader either reads what
was written, or notices that it does not know the variant, exactly when it has the
variant the same way, names included, or not at all.  So variants may be added at the
end, on either side, and nothing else may be done to them.

Writer and reader need not be one converter: of each field it is asked only that the one
reads what the other wrote (`Converter.Reads`).
-/
import Mathlib.Data.List.Basic

namespace Wire

/-! ## Converters -/

/-- A converter whose reading fails with an `ε`. -/
structure Converter (ε α : Type) where
  read : List UInt8 → Except ε (α × List UInt8)
  write : α → List UInt8
  allocationSize : α → Nat

/-- On `dom`, what is written is read back whatever follows, and takes the room that
was announced. -/
structure Converter.Lawful {ε α : Type} (c : Converter ε α) (dom : α → Prop) : Prop where
  read_write : ∀ a, dom a → ∀ rest, c.read (c.write a ++ rest) = .ok (a, rest)
  length_write : ∀ a, dom a → (c.write a).length = c.allocationSize a

/-- On `dom`, what another writer writes is read back whatever follows. -/
def Converter.Reads {ε α : Type} (c : Converter ε α) (write : α → List UInt8) (dom : α → Prop) :
    Prop :=
  ∀ a, dom a → ∀ rest, c.read (write a ++ rest) = .ok (a, rest)

theorem Converter.Lawful.reads {ε α : Type} {c : Converter ε α} {dom : α → Prop} (h : c.Lawful dom)
    {write : α → List UInt8} (heq : ∀ a, dom a → write a = c.write a) : c.Reads write dom := by
  intro a ha rest
  rw [heq a ha]
  exact h.read_write a ha rest

/-! ## Fields -/

section Union

variable {ε κ ν : Type} {Field : κ → Type} (field : (k : κ) → Converter ε (Field k))
  (write : (k : κ) → Field k → List UInt8)

/-- Fields of the given kinds, one after the other, each under its name. -/
def readFields : List (ν × κ) → List UInt8 → Except ε (List (ν × Sigma Field) × List UInt8)
  | [], bytes => .ok ([], bytes)
  | (name, k) :: ks, bytes => do
      let (value, bytes) ← (field k).read bytes
      let (values, bytes) ← readFields ks bytes
      .ok ((name, ⟨k, value⟩) :: values, bytes)

/-- The values alone: the names are not on the wire. -/
def writeFields (values : List (ν × Sigma Field)) : List UInt8 :=
  values.flatMap fun v => write v.2.1 v.2.2

/-- The declaration that fields are of. -/
def declared (values : List (ν × Sigma Field)) : List (ν × κ) :=
  values.map fun v => (v.1, v.2.1)

theorem readFields_cons (name : ν) (k : κ) (ks : List (ν × κ)) (bytes : List UInt8) :
    readFields field ((name, k) :: ks) bytes =
      (field k).read bytes >>= fun r => readFields field ks r.2 >>= fun rs =>
        .ok ((name, ⟨k, r.1⟩) :: rs.1, rs.2) := rfl

variable {field} {write} {dom : (k : κ) → Field k → Prop}
  (hfield : ∀ k, (field k).Reads (write k) (dom k))

include hfield in
theorem readFields_writeFields : ∀ {values : List (ν × Sigma Field)},
    (∀ v ∈ values, dom v.2.1 v.2.2) → ∀ rest,
      readFields field (declared values) (writeFields write values ++ rest) = .ok (values, rest)
  | [], _, _ => rfl
  | v :: values, h, rest => by
      have hhead := hfield v.2.1 v.2.2 (h v List.mem_cons_self) (writeFields write values ++ rest)
      have htail := readFields_writeFields (fun w hw => h w (List.mem_cons_of_mem v hw)) rest
      rw [writeFields, List.flatMap_cons, List.append_assoc, declared, List.map_cons,
        readFields_cons]
      rw [writeFields] at hhead htail
      rw [hhead]
      show (readFields field (declared values) _ >>= _) = _
      rw [htail]
      rfl

theorem declared_of_readFields : ∀ {ks : List (ν × κ)} {bytes : List UInt8}
    {values : List (ν × Sigma Field)} {rest : List UInt8},
    readFields field ks bytes = .ok (values, rest) → declared values = ks
  | [], _, _, _, h => by
      cases h
      rfl
  | (name, k) :: ks, bytes, _, _, h => by
      rw [readFields_cons] at h
      cases hk : (field k).read bytes with
      | error e =>
          rw [hk] at h
          cases h
      | ok r =>
          rw [hk] at h
          change (readFields field ks r.2 >>= _) = _ at h
          cases hks : readFields field ks r.2 with
          | error e =>
              rw [hks] at h
              cases h
          | ok rs =>
              rw [hks] at h
              cases h
              rw [declared, List.map_cons, ← declared, declared_of_readFields hks]

/-! ## Unions -/

/-- Why a union is not read. -/
inductive Failure (ε : Type)
  | unexpectedEnumCase
  | field (e : ε)
deriving DecidableEq

/-- A variant as declared: its name, and its fields with their names and kinds. -/
structure Variant (ν κ : Type) where
  tag : ν
  fields : List (ν × κ)
deriving DecidableEq

/-- A value of a union: the name of its variant, and the fields under their names. -/
structure Message (ν : Type) (Field : κ → Type) where
  tag : ν
  fields : List (ν × Sigma Field)

def Message.variant (m : Message ν Field) : Variant ν κ := ⟨m.tag, declared m.fields⟩

variable (ordinal : Converter ε Int) (writeOrdinal : Int → List UInt8) (field) (write)

/-- Variants are numbered from one. -/
def writeUnion (i : Nat) (m : Message ν Field) : List UInt8 :=
  writeOrdinal (i + 1) ++ writeFields write m.fields

/-- The variant of an ordinal. -/
def variantAt (variants : List (Variant ν κ)) (n : Int) : Option (Variant ν κ) :=
  if 1 ≤ n then variants[(n - 1).toNat]? else none

/-- The fields of a variant, under its name. -/
def readVariant (v : Variant ν κ) (bytes : List UInt8) :
    Except (Failure ε) (Message ν Field × List UInt8) :=
  match readFields field v.fields bytes with
  | .error e => .error (.field e)
  | .ok (values, rest) => .ok (⟨v.tag, values⟩, rest)

/-- What follows an ordinal. -/
def readCase (variants : List (Variant ν κ)) (n : Int) (bytes : List UInt8) :
    Except (Failure ε) (Message ν Field × List UInt8) :=
  match variantAt variants n with
  | none => .error .unexpectedEnumCase
  | some v => readVariant field v bytes

def readUnion (variants : List (Variant ν κ)) (bytes : List UInt8) :
    Except (Failure ε) (Message ν Field × List UInt8) :=
  match ordinal.read bytes with
  | .error e => .error (.field e)
  | .ok r => readCase field variants r.1 r.2

theorem variantAt_succ (variants : List (Variant ν κ)) (i : Nat) :
    variantAt variants (i + 1) = variants[i]? := by
  rw [variantAt, if_pos (by omega)]
  congr 1
  omega

theorem readVariant_cases (v : Variant ν κ) (bytes : List UInt8) :
    (∃ e, readVariant field v bytes = .error (.field e)) ∨
      ∃ (m : Message ν Field) (rest : List UInt8),
        readVariant field v bytes = .ok (m, rest) ∧ m.variant = v := by
  rw [readVariant]
  cases hread : readFields field v.fields bytes with
  | error e => exact Or.inl ⟨e, rfl⟩
  | ok r => exact Or.inr ⟨⟨v.tag, r.1⟩, r.2, rfl, congrArg (Variant.mk v.tag) (declared_of_readFields hread)⟩

variable {ordinal} {writeOrdinal} {field} {write}

include hfield in
theorem readVariant_writeFields {m : Message ν Field} (hm : ∀ v ∈ m.fields, dom v.2.1 v.2.2)
    (rest : List UInt8) :
    readVariant field m.variant (writeFields write m.fields ++ rest) = .ok (m, rest) := by
  have hread := readFields_writeFields hfield hm rest
  rw [readVariant, Message.variant, hread]

variable {domO : Int → Prop} (hordinal : ordinal.Reads writeOrdinal domO)

section Read

variable {variants : List (Variant ν κ)} {i : Nat} (hi : domO (i + 1)) {m : Message ν Field}
  (rest : List UInt8)

include hordinal hi

theorem readUnion_writeUnion_of_none (h : variants[i]? = none) :
    readUnion field ordinal variants (writeUnion write writeOrdinal i m ++ rest) =
      .error .unexpectedEnumCase := by
  rw [readUnion, writeUnion, List.append_assoc, hordinal _ hi]
  simp only [readCase, variantAt_succ, h]

theorem readUnion_writeUnion_of_some {v : Variant ν κ} (h : variants[i]? = some v) :
    readUnion field ordinal variants (writeUnion write writeOrdinal i m ++ rest) =
      readVariant field v (writeFields write m.fields ++ rest) := by
  rw [readUnion, writeUnion, List.append_assoc, hordinal _ hi]
  simp only [readCase, variantAt_succ, h]

include hfield in
/-- A variant the reader has the same way is read back, and one it does not have is
noticed; one it has another way is neither. -/
theorem readUnion_writeUnion_iff (hm : ∀ v ∈ m.fields, dom v.2.1 v.2.2) :
    (readUnion field ordinal variants (writeUnion write writeOrdinal i m ++ rest) = .ok (m, rest) ∨
        readUnion field ordinal variants (writeUnion write writeOrdinal i m ++ rest) =
          .error .unexpectedEnumCase) ↔
      ∀ v, variants[i]? = some v → v = m.variant := by
  cases h : variants[i]? with
  | none =>
      rw [readUnion_writeUnion_of_none hordinal hi rest h]
      constructor
      · intro _ v hv
        cases hv
      · intro _
        exact Or.inr rfl
  | some v =>
      rw [readUnion_writeUnion_of_some hordinal hi rest h]
      constructor
      · intro hread v' hv'
        cases hv'
        rcases readVariant_cases field v (writeFields write m.fields ++ rest) with
          ⟨e, he⟩ | ⟨m', rest', hok, hvariant⟩
        · rw [he] at hread
          rcases hread with hread | hread
          · cases hread
          · cases hread
        · rw [hok] at hread
          rcases hread with hread | hread
          · cases hread
            exact hvariant.symm
          · cases hread
      · intro hsame
        rw [hsame v rfl]
        exact Or.inl (readVariant_writeFields hfield hm rest)

end Read

end Union

end Wire
