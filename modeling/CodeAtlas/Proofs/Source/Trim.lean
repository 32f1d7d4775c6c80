import CodeAtlas.Source.Text

/-!
Spans without the blanks at their ends.
-/

namespace CodeAtlas.Source

def BlankAt (bytes : List UInt8) (i : Nat) : Prop := ∀ b ∈ bytes[i]?, isAsciiBlank b = true

/-- What is left between two bytes without the blanks at the ends: nothing where all is blank, or
else the span from the first to the last byte that is not. -/
inductive Stripped (bytes : List UInt8) (first last : Nat) : Option (Nat × Nat) → Prop where
  | none : (∀ i, first ≤ i → i < last → BlankAt bytes i) → Stripped bytes first last none
  | some {a b : Nat} : first ≤ a → a < b → b ≤ last → (∀ i, first ≤ i → i < a → BlankAt bytes i) →
      ¬ BlankAt bytes a → ¬ BlankAt bytes (b - 1) → (∀ i, b ≤ i → i < last → BlankAt bytes i) →
      Stripped bytes first last (some (a, b))

section Strip

variable {α : Type} {q : α → Bool} {l : List α} {i : Nat} {x : α}

theorem length_takeWhile (q : α → Bool) (l : List α) :
    (l.takeWhile q).length = l.findIdx fun x => !q x := by
  rw [List.takeWhile_eq_take_findIdx_not, List.length_take]
  exact Nat.min_eq_left List.findIdx_le_length

/-- What is taken is so, and what comes then is not. -/
theorem of_lt_takeWhile (hx : l[i]? = some x) (hi : i < (l.takeWhile q).length) : q x = true := by
  rw [length_takeWhile] at hi
  obtain ⟨hlt, rfl⟩ := List.getElem?_eq_some_iff.mp hx
  simpa using List.not_of_lt_findIdx hi

theorem exists_after_takeWhile (h : (l.takeWhile q).length < l.length) :
    ∃ x, l[(l.takeWhile q).length]? = some x ∧ q x = false := by
  rw [length_takeWhile] at h ⊢
  exact ⟨_, List.getElem?_eq_getElem h, by simpa using List.findIdx_getElem (w := h)⟩

theorem of_ge_takeWhile (hx : l[i]? = some x) (hi : l.length - (l.reverse.takeWhile q).length ≤ i) :
    q x = true := by
  obtain ⟨hlt, -⟩ := List.getElem?_eq_some_iff.mp hx
  have hrev : l.reverse[l.length - 1 - i]? = some x := by
    rw [List.getElem?_reverse (by omega), show l.length - 1 - (l.length - 1 - i) = i by omega, hx]
  exact of_lt_takeWhile hrev (by omega)

theorem exists_before_takeWhile (h : (l.reverse.takeWhile q).length < l.length) :
    ∃ x, l[l.length - (l.reverse.takeWhile q).length - 1]? = some x ∧ q x = false := by
  obtain ⟨x, hx, hq⟩ := exists_after_takeWhile (l := l.reverse) (by rwa [List.length_reverse])
  rw [List.getElem?_reverse h] at hx
  exact ⟨x, by rwa [Nat.sub_right_comm], hq⟩

end Strip

variable {bytes : List UInt8} {first last i : Nat}

theorem getElem?_slice (h : i < last - first) :
    (slice bytes first last)[i]? = bytes[first + i]? := by
  rw [slice, List.getElem?_take_of_lt h, List.getElem?_drop]

/-- A span without the blanks at its ends lies in the span and is not empty. -/
theorem trimSpan?_bounds {a b : Nat} (h : trimSpan? bytes first last = some (a, b)) :
    first ≤ a ∧ a < b ∧ b ≤ last := by
  have hlen : (slice bytes first last).length ≤ last - first := List.length_take_le _ _
  unfold trimSpan? at h
  dsimp only at h
  split at h
  · rename_i hlead
    obtain ⟨rfl, rfl⟩ := Prod.mk.inj (Option.some.inj h)
    obtain ⟨x, hx, hxb⟩ := exists_after_takeWhile hlead
    have hapart : ¬ (slice bytes first last).length -
        ((slice bytes first last).reverse.takeWhile isAsciiBlank).length ≤
        ((slice bytes first last).takeWhile isAsciiBlank).length :=
      fun hle => ne_true_of_eq_false hxb (of_ge_takeWhile hx hle)
    omega
  · exact absurd h nofun

theorem stripped_trimSpan? (bytes : List UInt8) (first last : Nat) :
    Stripped bytes first last (trimSpan? bytes first last) := by
  have hat : ∀ i, first ≤ i → i < last → bytes[i]? = (slice bytes first last)[i - first]? := by
    intro i hi hl
    rw [getElem?_slice (by omega), Nat.add_sub_cancel' hi]
  cases htrim : trimSpan? bytes first last with
  | none =>
    refine .none fun i hi hl b hb => ?_
    rw [hat i hi hl] at hb
    unfold trimSpan? at htrim
    dsimp only at htrim
    split at htrim
    · exact absurd htrim nofun
    · rename_i hall
      have hlt := (List.getElem?_eq_some_iff.mp hb).1
      exact of_lt_takeWhile hb (by omega)
  | some span =>
    obtain ⟨a, b⟩ := span
    obtain ⟨hfirst, hab, hlast⟩ := trimSpan?_bounds htrim
    unfold trimSpan? at htrim
    dsimp only at htrim
    split at htrim
    · rename_i hlead
      obtain ⟨rfl, rfl⟩ := Prod.mk.inj (Option.some.inj htrim)
      refine .some hfirst hab hlast (fun i hi hl b hb => ?_) (fun hblank => ?_) (fun hblank => ?_)
        (fun i hi hl b hb => ?_)
      · rw [hat i hi (by omega)] at hb
        exact of_lt_takeWhile hb (by omega)
      · obtain ⟨x, hx, hxb⟩ := exists_after_takeWhile hlead
        rw [BlankAt, hat _ hfirst (by omega), Nat.add_sub_cancel_left, hx] at hblank
        exact ne_true_of_eq_false hxb (hblank x rfl)
      · obtain ⟨y, hy, hyb⟩ :=
          exists_before_takeWhile (q := isAsciiBlank) (l := slice bytes first last) (by omega)
        have hplace : ∀ size trailing, first + size - trailing - 1 - first =
          size - trailing - 1 := by omega
        rw [BlankAt, hat _ (by omega) (by omega), hplace, hy] at hblank
        exact ne_true_of_eq_false hyb (hblank y rfl)
      · rw [hat i (by omega) hl] at hb
        exact of_ge_takeWhile hb (by omega)
    · exact absurd htrim nofun

end CodeAtlas.Source
