import Mathlib.Data.List.Basic
import CodeAtlas.Proofs.Text.Pieces

/-!
Ids of chunks. An id is read from its end: numbers hold no minus sign and no colon, and the name of
a kind holds no number sign, so that the last of each of these marks parts the id, whatever
characters the path has. Main statement: a span is read from its id and from no other text, and so
chunks share an id only if they are of one kind and span the same bytes of one file.
-/

namespace CodeAtlas

namespace ChunkKind

theorem ofLabel?_eq_some_iff {s : String} {kind : ChunkKind} :
    ofLabel? s = some kind ↔ s = kind.label := by
  constructor
  · intro h
    unfold ofLabel? at h
    have hlabel := List.find?_some h
    exact (beq_iff_eq.mp hlabel).symm
  · rintro rfl
    cases kind <;> decide

theorem not_mem_label (kind : ChunkKind) : '#' ∉ kind.label.toList := by
  cases kind <;> decide

end ChunkKind

namespace Chunk

open Text

section Numbers

variable {digits : List Char} {c : Char} {n : Nat}

/-- The number that digits write. No number is written with a zero in front of other digits. -/
def number? (digits : List Char) : Option Nat :=
  if digits ≠ [] ∧ digits.all Char.isDigit = true ∧
      (digits.head? = some '0' → digits.length = 1) then
    some (Nat.ofDigitChars 10 digits 0)
  else none

theorem not_mem_digits (hc : c.isDigit = false) (n : Nat) : c ∉ Nat.toDigits 10 n := by
  intro h
  rw [Nat.isDigit_of_mem_toDigits (by decide) (by decide) h] at hc
  exact Bool.noConfusion hc

theorem head?_toDigits_ne (h : 0 < n) : (Nat.toDigits 10 n).head? ≠ some '0' := by
  induction n using Nat.strongRecOn with
  | ind n ih =>
    by_cases hn : n < 10
    · rw [Nat.toDigits_of_lt_base hn]
      simpa using Nat.ne_of_gt h
    · rw [Nat.toDigits_of_base_le (by decide) (by omega),
        List.head?_append_of_ne_nil _ Nat.toDigits_ne_nil]
      exact ih (n / 10) (by omega) (by omega)

theorem exists_digitChar (h : c.isDigit = true) : ∃ d < 10, c = Nat.digitChar d := by
  obtain ⟨hlow, hhigh⟩ : 48 ≤ c.toNat ∧ c.toNat ≤ 57 := Char.isDigit_iff_toNat.mp h
  refine ⟨c.toNat - 48, by omega, Char.toNat_inj.mp ?_⟩
  rw [Nat.toNat_digitChar_of_lt_ten (by omega)]
  omega

theorem toDigits_append (hn : 0 < n) (h : ∀ c ∈ digits, c.isDigit = true) :
    Nat.toDigits 10 n ++ digits = Nat.toDigits 10 (Nat.ofDigitChars 10 digits n) := by
  induction digits generalizing n with
  | nil => rw [List.append_nil, Nat.ofDigitChars_nil]
  | cons c digits ih =>
    -- the first digit goes over to the number in front of the others
    obtain ⟨hc, hdigits⟩ := List.forall_mem_cons.mp h
    obtain ⟨d, hd, rfl⟩ := exists_digitChar hc
    calc
      Nat.toDigits 10 n ++ d.digitChar :: digits = (Nat.toDigits 10 n ++ Nat.toDigits 10 d) ++
          digits := by
        rw [Nat.toDigits_of_lt_base hd, List.append_assoc, List.singleton_append]
      _ = Nat.toDigits 10 (10 * n + d) ++ digits := by
        rw [Nat.toDigits_append_toDigits (by decide) hn hd]
      _ = Nat.toDigits 10 (Nat.ofDigitChars 10 digits (10 * n + d)) := ih (by omega) hdigits
      _ = Nat.toDigits 10 (Nat.ofDigitChars 10 (d.digitChar :: digits) n) := by
        rw [Nat.ofDigitChars_cons_digitChar_of_lt_ten hd]

theorem toDigits_ofDigitChars (hne : digits ≠ []) (hdigits : ∀ c ∈ digits, c.isDigit = true)
    (hzero : digits.head? = some '0' → digits.length = 1) :
    Nat.toDigits 10 (Nat.ofDigitChars 10 digits 0) = digits := by
  obtain ⟨c, rest, rfl⟩ := List.exists_cons_of_ne_nil hne
  obtain ⟨hc, hrest⟩ := List.forall_mem_cons.mp hdigits
  obtain ⟨d, hd, rfl⟩ := exists_digitChar hc
  rw [Nat.ofDigitChars_cons_digitChar_of_lt_ten hd, Nat.mul_zero, Nat.zero_add]
  rcases Nat.eq_zero_or_pos d with rfl | hpos
  · -- a zero in front is all there is
    have hnil : rest = [] := List.length_eq_zero_iff.mp (Nat.succ.inj (hzero rfl))
    subst hnil
    rfl
  · rw [← toDigits_append hpos hrest, Nat.toDigits_of_lt_base hd, List.singleton_append]

theorem number?_eq_some_iff : number? digits = some n ↔ digits = Nat.toDigits 10 n := by
  rw [number?, Option.ite_none_right_eq_some, List.all_eq_true, Option.some.injEq]
  constructor
  · rintro ⟨⟨hne, hdigits, hzero⟩, rfl⟩
    exact (toDigits_ofDigitChars hne hdigits hzero).symm
  · rintro rfl
    have hdigits : ∀ c ∈ Nat.toDigits 10 n, c.isDigit = true :=
      fun _ => Nat.isDigit_of_mem_toDigits (by decide) (by decide)
    refine ⟨⟨Nat.toDigits_ne_nil, hdigits, fun hhead => ?_⟩, Nat.ofDigitChars_ten_toDigits⟩
    rcases Nat.eq_zero_or_pos n with rfl | hpos
    · rfl
    · exact absurd hhead (head?_toDigits_ne hpos)

end Numbers

section Reading

variable {id path path' : String} {kind kind' : ChunkKind} {first last first' last' : Nat}

/-- The file, the kind and the ends of the span that an id names, read from the end of the id. -/
def spanOf? (id : String) : Option (String × ChunkKind × Nat × Nat) := do
  let (front, last) ← cutAtLast? '-' id.toList
  let (front, first) ← cutAtLast? ':' front
  let (path, label) ← cutAtLast? '#' front
  return (String.ofList path, ← ChunkKind.ofLabel? (String.ofList label), ← number? first,
    ← number? last)

theorem toList_idOf (path : String) (kind : ChunkKind) (first last : Nat) :
    (idOf path kind first last).toList =
      ((path.toList ++ '#' :: kind.label.toList) ++ ':' :: Nat.toDigits 10 first) ++
        '-' :: Nat.toDigits 10 last := by
  simp [idOf, toString, Nat.toList_repr]

theorem spanOf?_idOf (path : String) (kind : ChunkKind) (first last : Nat) :
    spanOf? (idOf path kind first last) = some (path, kind, first, last) := by
  unfold spanOf?
  rw [toList_idOf, cutAtLast?_append (not_mem_digits rfl last)]
  simp only [Option.bind_eq_bind, Option.bind_some]
  rw [cutAtLast?_append (not_mem_digits rfl first)]
  simp only [Option.bind_some]
  rw [cutAtLast?_append kind.not_mem_label]
  simp only [Option.bind_some, String.ofList_toList]
  rw [ChunkKind.ofLabel?_eq_some_iff.mpr rfl, number?_eq_some_iff.mpr rfl,
    number?_eq_some_iff.mpr rfl]
  rfl

theorem spanOf?_eq_some_iff : spanOf? id = some (path, kind, first, last) ↔
    id = idOf path kind first last := by
  constructor
  · intro h
    simp only [spanOf?, Option.bind_eq_bind, Option.bind_eq_some_iff, Prod.exists, Option.pure_def,
      Option.some.injEq, Prod.mk.injEq, cutAtLast?_eq_some_iff, ChunkKind.ofLabel?_eq_some_iff,
      number?_eq_some_iff] at h
    obtain ⟨front, lastDigits, ⟨hid, -⟩, front', firstDigits, ⟨rfl, -⟩, path', label, ⟨rfl, -⟩,
      kind', hlabel, first', rfl, last', rfl, rfl, rfl, rfl, rfl⟩ := h
    rw [← String.toList_inj, hid, toList_idOf, ← hlabel, String.toList_ofList, String.toList_ofList]
  · rintro rfl
    exact spanOf?_idOf path kind first last

/-- Chunks with one id are of one kind and span the same bytes of one file. -/
theorem idOf_inj (h : idOf path kind first last = idOf path' kind' first' last') :
    path = path' ∧ kind = kind' ∧ first = first' ∧ last = last' := by
  have hspan : some (path, kind, first, last) = some (path', kind', first', last') := by
    rw [← spanOf?_idOf, h, spanOf?_idOf]
  simpa using hspan

/-- Whatever characters stand in the paths, ids are equal only for one kind and the same bytes of
one file. An id is read back as its span, and no other text is read as this span. -/
theorem idOf_unambiguous (path : String) (kind : ChunkKind) (first last : Nat) :
    (∀ path' kind' first' last', idOf path kind first last = idOf path' kind' first' last' ↔
        path = path' ∧ kind = kind' ∧ first = first' ∧ last = last') ∧
      ∀ id, spanOf? id = some (path, kind, first, last) ↔ id = idOf path kind first last := by
  refine ⟨fun path' kind' first' last' => ⟨idOf_inj, ?_⟩, fun id => spanOf?_eq_some_iff⟩
  rintro ⟨rfl, rfl, rfl, rfl⟩
  rfl

example : spanOf? "a#file:0-1#member:2-30" = some ("a#file:0-1", .member, 2, 30) := rfl

example : spanOf? "a.rs#file:00-1" = none := rfl

end Reading

end Chunk

end CodeAtlas
