import CodeAtlas.Proofs.Document.Written

/-!
How deep documents are nested. A document is read from what is written for it exactly as deep as the
reader goes; when it is nested deeper, nothing of it is read.
-/

namespace CodeAtlas.Document

mutual

/-- How many lists and records stand one inside the other. -/
def depth : Document → Nat
  | list items => depthItems items + 1
  | record fields => depthFields fields + 1
  | _ => 0

def depthItems : List Document → Nat
  | [] => 0
  | d :: ds => max (depth d) (depthItems ds)

def depthFields : List (String × Document) → Nat
  | [] => 0
  | (_, d) :: fields => max (depth d) (depthFields fields)

end

section Limits

variable {j k : Nat} {d : Document} {items : List Document} {fields : List (String × Document)}

theorem depthItems_le_iff : depthItems items ≤ k ↔ ∀ d ∈ items, d.depth ≤ k := by
  induction items with
  | nil => simp [depthItems]
  | cons d items ih => rw [depthItems, Nat.max_le, ih, List.forall_mem_cons]

theorem depthFields_le_iff : depthFields fields ≤ k ↔ ∀ e ∈ fields, e.2.depth ≤ k := by
  induction fields with
  | nil => simp [depthFields]
  | cons e fields ih => rw [depthFields, Nat.max_le, ih, List.forall_mem_cons]

theorem lt_depthItems_iff : k < depthItems items ↔ ∃ d ∈ items, k < d.depth := by
  simpa using depthItems_le_iff.not

theorem lt_depthFields_iff : k < depthFields fields ↔ ∃ e ∈ fields, k < e.2.depth := by
  simpa using depthFields_le_iff.not

/-- Of what can be read at all, the depth alone decides how far the reader has to go. -/
theorem Legible.of_depth_le (h : Legible j d) (hd : d.depth ≤ k) : Legible k d := by
  induction h generalizing k with
  | null => exact .null k
  | boolean _ b => exact .boolean k b
  | integer _ hn => exact .integer k hn
  | real _ hx => exact .real k hx
  | text _ s => exact .text k s
  | list _ ih =>
    rw [depth] at hd
    obtain ⟨k, rfl⟩ := Nat.exists_eq_add_of_le' (Nat.lt_of_lt_of_le (Nat.zero_lt_succ _) hd)
    exact .list fun d hm => ih d hm (depthItems_le_iff.mp (Nat.le_of_succ_le_succ hd) d hm)
  | record _ ih =>
    rw [depth] at hd
    obtain ⟨k, rfl⟩ := Nat.exists_eq_add_of_le' (Nat.lt_of_lt_of_le (Nat.zero_lt_succ _) hd)
    exact .record fun e hm => ih e hm (depthFields_le_iff.mp (Nat.le_of_succ_le_succ hd) e hm)

end Limits

section Refusal

variable {α β : Type} {item : Reader α} {close c : Char} {s t rest : List Char} {a : α}

theorem itemsUntil_of_first (h : item (skipSpaces s) = none) : itemsUntil close item s = none := by
  fun_cases itemsUntil close item s <;> simp_all

theorem itemsUntil_of_rest (hclose : ',' ≠ close) (h : Takes item (skipSpaces s) a rest)
    (ht : skipSpaces rest = ',' :: t) (hrest : itemsUntil close item t = none) :
    itemsUntil close item s = none := by
  obtain ⟨hlen, ha⟩ := h
  fun_cases itemsUntil close item s with
  | case5 b r hb c u hu hlt hne hc as r' has =>
    obtain ⟨rfl, rfl⟩ := Prod.mk.inj (Option.some.inj (ha.symm.trans hb))
    obtain ⟨-, rfl⟩ := List.cons.inj (ht.symm.trans hu)
    exact absurd (hrest.symm.trans has) (Option.some_ne_none _).symm
  | _ => simp_all

theorem itemsOrNone_of_until (hs : skipSpaces s = c :: t) (hc : c ≠ close)
    (h : itemsUntil close item s = none) : itemsOrNone close item s = none := by
  fun_cases itemsOrNone close item s <;> simp_all

def Fails (item : Reader α) (s : List Char) : Prop :=
  ∀ rest, Closed rest → item (s ++ rest) = none

/-- Items with commas between them are not read if one of them is not read and those before it
are. -/
theorem itemsUntil_eq_none {write : β → List Char} {as : List β} (hcomma : ',' ≠ close)
    (hclosed : Closed (close :: rest)) (hopens : ∀ b ∈ as, Opens (write b))
    (hreads : ∀ b ∈ as, (∃ a, ∀ t, Closed t → Takes item (write b ++ t) a t) ∨ Fails item (write b))
    (hfails : ∃ b ∈ as, Fails item (write b)) :
    itemsUntil close item (joined [','] (as.map write) ++ close :: rest) = none := by
  induction as with
  | nil =>
    obtain ⟨b, hb, -⟩ := hfails
    exact absurd hb List.not_mem_nil
  | cons a as ih =>
    have hskip : ∀ t, skipSpaces (write a ++ t) = write a ++ t := fun _ =>
      skipSpaces_of_opens (hopens a List.mem_cons_self)
    cases as with
    | nil =>
      obtain ⟨b, hb, hfail⟩ := hfails
      obtain rfl := List.mem_singleton.mp hb
      apply itemsUntil_of_first
      rw [List.map_singleton, joined, hskip]
      exact hfail _ hclosed
    | cons b as =>
      have htext : joined [','] ((a :: b :: as).map write) ++ close :: rest =
          write a ++ ',' :: (joined [','] ((b :: as).map write) ++ close :: rest) := by
        simp [joined]
      have hcomma' : ∀ t, skipSpaces (',' :: t) = ',' :: t := fun _ => skipSpaces_cons rfl
      rw [htext]
      rcases hreads a List.mem_cons_self with ⟨x, hread⟩ | hfail
      · have hlater : ∃ d ∈ b :: as, Fails item (write d) := by
          obtain ⟨d, hd, hfail⟩ := hfails
          rcases List.mem_cons.mp hd with rfl | hd
          · obtain ⟨hlen, hsome⟩ := hread [] closed_nil
            exact absurd (hsome.symm.trans (hfail [] closed_nil)) (Option.some_ne_none _)
          · exact ⟨d, hd, hfail⟩
        have hrest := ih (fun d hd => hopens d (List.mem_cons_of_mem a hd))
          (fun d hd => hreads d (List.mem_cons_of_mem a hd)) hlater
        have hfirst := hread _ (closed_comma (joined [','] ((b :: as).map write) ++ close :: rest))
        rw [← hskip] at hfirst
        exact itemsUntil_of_rest hcomma hfirst (hcomma' _) hrest
      · apply itemsUntil_of_first
        rw [hskip]
        exact hfail _ (closed_comma _)

/-- Items between brackets of which one is not read. -/
theorem itemsOrNone_eq_none {write : β → List Char} {as : List β}
    (hclose : close = ']' ∨ close = '\x7d') (hopens : ∀ b ∈ as, Opens (write b))
    (hreads : ∀ b ∈ as, (∃ a, ∀ t, Closed t → Takes item (write b ++ t) a t) ∨ Fails item (write b))
    (hfails : ∃ b ∈ as, Fails item (write b)) :
    itemsOrNone close item (joined [','] (as.map write) ++ close :: rest) = none := by
  have hcomma : ',' ≠ close := by
    rcases hclose with rfl | rfl <;> decide
  have huntil : itemsUntil close item (joined [','] (as.map write) ++ close :: rest) = none :=
    itemsUntil_eq_none hcomma (closed_trail blank_nil hclose rest) hopens hreads hfails
  cases as with
  | nil =>
    obtain ⟨b, hb, -⟩ := hfails
    exact absurd hb List.not_mem_nil
  | cons a as =>
    obtain ⟨c, u, hu, hc, hne⟩ :=
      (opens_joined (hopens a List.mem_cons_self) [','] as).exists_cons hclose
    rw [hu] at huntil ⊢
    exact itemsOrNone_of_until (skipSpaces_cons hc) hne huntil

theorem field_fails {value : Reader Document} (name : String) (hs : Opens s) (h : Fails value s) :
    Fails (field value) (quote name ++ ':' :: s) := by
  intro rest hrest
  have hnone : value (skipSpaces (s ++ rest)) = none := by
    rw [skipSpaces_of_opens hs]
    exact h rest hrest
  obtain ⟨hlen, hname⟩ := takes_quoted name.toList (':' :: (s ++ rest))
  have htext : (quote name ++ ':' :: s) ++ rest =
      '\x22' :: (name.toList.flatMap escape ++ '\x22' :: ':' :: (s ++ rest)) := by
    simp [quote]
  rw [htext, field]
  simp only [hname]
  split
  · rename_i u hu
    obtain rfl : s ++ rest = u := (List.cons.inj ((skipSpaces_cons rfl).symm.trans hu)).2
    rw [hnone]
  · rfl

end Refusal

section Printing

variable {j k : Nat} {d : Document} {rest : List Char}

theorem value_list_eq_none (h : itemsOrNone ']' (value k) rest = none) :
    value (k + 1) ('[' :: rest) = none := by
  simp [value, h]

theorem value_record_eq_none (h : itemsOrNone '\x7d' (field (value k)) rest = none) :
    value (k + 1) ('\x7b' :: rest) = none := by
  simp [value, h]

/-- A document that is nested too deep is not read from what is written for it, whatever follows. -/
theorem Legible.value_fails (h : Legible j d) (hd : k < d.depth) : Fails (value k) d.compact := by
  induction h generalizing k with
  | null => exact absurd hd (Nat.not_lt_zero k)
  | boolean => exact absurd hd (Nat.not_lt_zero k)
  | integer => exact absurd hd (Nat.not_lt_zero k)
  | real => exact absurd hd (Nat.not_lt_zero k)
  | text => exact absurd hd (Nat.not_lt_zero k)
  | @list j items hitems ih =>
    intro rest _
    have htext : (Document.list items).compact ++ rest =
        '[' :: (joined [','] (items.map compact) ++ ']' :: rest) := by
      simp [compact, compactItems_eq]
    rw [htext]
    cases k with
    | zero => rfl
    | succ k =>
      obtain ⟨deep, hmem, hdeep⟩ := lt_depthItems_iff.mp (Nat.lt_of_succ_lt_succ hd)
      have hnone : itemsOrNone ']' (value k) (joined [','] (items.map compact) ++ ']' :: rest) =
          none := by
        refine itemsOrNone_eq_none (Or.inl rfl) (fun d hm => (hitems d hm).shows_compact.1)
          (fun d hm => ?_) ⟨deep, hmem, ih deep hmem hdeep⟩
        rcases Nat.lt_or_ge k d.depth with hlt | hle
        · exact Or.inr (ih d hm hlt)
        · exact Or.inl ⟨_, ((hitems d hm).of_depth_le hle).shows_compact.2⟩
      exact value_list_eq_none hnone
  | @record j fields hfields ih =>
    intro rest _
    have htext : (Document.record fields).compact ++ rest = '\x7b' ::
        (joined [','] (fields.map fun e => quote e.1 ++ ':' :: ([] ++ e.2.compact)) ++
            '\x7d' :: rest) := by
      simp [compact, compactFields_eq]
    rw [htext]
    cases k with
    | zero => rfl
    | succ k =>
      obtain ⟨deep, hmem, hdeep⟩ := lt_depthFields_iff.mp (Nat.lt_of_succ_lt_succ hd)
      have hfail : ∀ e ∈ fields, k < e.2.depth →
          Fails (field (value k)) (quote e.1 ++ ':' :: ([] ++ e.2.compact)) :=
        fun e hm hlt => field_fails e.1 (hfields e hm).shows_compact.1 (ih e hm hlt)
      have hnone : itemsOrNone '\x7d' (field (value k))
          (joined [','] (fields.map fun e => quote e.1 ++ ':' :: ([] ++ e.2.compact)) ++
              '\x7d' :: rest) = none := by
        refine itemsOrNone_eq_none (Or.inr rfl) (fun e hm => ⟨_, _, rfl, by decide⟩)
          (fun e hm => ?_) ⟨deep, hmem, hfail deep hmem hdeep⟩
        rcases Nat.lt_or_ge k e.2.depth with hlt | hle
        · exact Or.inr (hfail e hm hlt)
        · obtain ⟨hopens, htakes⟩ := ((hfields e hm).of_depth_le hle).shows_compact
          exact Or.inl ⟨_, fun t ht => takes_field e.1 blank_nil hopens (htakes t ht)⟩
      exact value_record_eq_none hnone

/-- Nothing is read of a document that is nested deeper than the reader goes. -/
theorem parse?_render_eq_none (h : Legible j d) (hd : nestingLimit < d.depth) :
    parse? d.render = none := by
  have hnone : value nestingLimit (skipSpaces d.render.toList) = none := by
    rw [render, String.toList_ofList, ← List.append_nil d.compact,
      skipSpaces_of_opens h.shows_compact.1]
    exact h.value_fails hd [] closed_nil
  unfold parse?
  rw [hnone]

end Printing

end CodeAtlas.Document
