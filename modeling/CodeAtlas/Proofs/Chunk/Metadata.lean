import Mathlib.Data.String.Basic
import CodeAtlas.Chunk.Metadata
import CodeAtlas.Proofs.Document.Depth

/-!
Metadata. Its names are in increasing order, and so are those of all records in it; reading it again
from what is written for it changes no order. It is the same again if no real number stands in it
and it is not nested too deep.
-/

namespace CodeAtlas

namespace Document

/-- Documents as data holds them: whole numbers fit in 64 bits, and records have each name once, in
increasing order. -/
inductive Proper : Document → Prop where
  | null : Proper null
  | boolean (b : Bool) : Proper (boolean b)
  | integer {n : Int} : inIntegerRange n = true → Proper (integer n)
  | real (x : Float) : Proper (real x)
  | text (s : String) : Proper (text s)
  | list {items : List Document} : (∀ d ∈ items, Proper d) → Proper (list items)
  | record {fields : List (String × Document)} :
      (fields.map Prod.fst).Pairwise (· < ·) → (∀ e ∈ fields, Proper e.2) → Proper (record fields)

/-- Documents in which no real number stands. -/
inductive WithoutReals : Document → Prop where
  | null : WithoutReals null
  | boolean (b : Bool) : WithoutReals (boolean b)
  | integer (n : Int) : WithoutReals (integer n)
  | text (s : String) : WithoutReals (text s)
  | list {items : List Document} : (∀ d ∈ items, WithoutReals d) → WithoutReals (list items)
  | record {fields : List (String × Document)} : (∀ e ∈ fields, WithoutReals e.2) →
    WithoutReals (record fields)

variable {d : Document}

theorem rereadItems_eq_self {items : List Document} (h : ∀ d ∈ items, reread d = d) :
    rereadItems items = items := by
  rw [rereadItems_eq, List.map_congr_left h, List.map_id']

theorem rereadFields_eq_self {fields : List (String × Document)}
    (h : ∀ e ∈ fields, reread e.2 = e.2) : rereadFields fields = fields := by
  have hself : ∀ e ∈ fields, (e.1, reread e.2) = e := fun e he => Prod.ext rfl (h e he)
  rw [rereadFields_eq, List.map_congr_left hself, List.map_id']

theorem WithoutReals.reread_eq (h : WithoutReals d) : reread d = d := by
  induction h with
  | null => rfl
  | boolean b => rfl
  | integer n => rfl
  | text s => rfl
  | list _ ih => rw [reread, rereadItems_eq_self ih]
  | record _ ih => rw [reread, rereadFields_eq_self ih]

/-- Without real numbers all that data holds can be read from what is written for it. -/
theorem Proper.legible (h : Proper d) (hr : WithoutReals d) : Legible d.depth d := by
  induction h with
  | null => exact .null _
  | boolean b => exact .boolean _ b
  | integer hn => exact .integer _ hn
  | real x => cases hr
  | text s => exact .text _ s
  | list _ ih =>
    cases hr with
    | list hr =>
      exact .list fun d hd => (ih d hd (hr d hd)).of_depth_le (depthItems_le_iff.mp le_rfl d hd)
  | record _ _ ih =>
    cases hr with
    | record hr =>
      exact .record fun e he => (ih e he (hr e he)).of_depth_le (depthFields_le_iff.mp le_rfl e he)

/-- Texts, truth values and lists of texts. -/
inductive Plain : Document → Prop where
  | text (s : String) : Plain (text s)
  | boolean (b : Bool) : Plain (boolean b)
  | texts (texts : List String) : Plain (ofTexts texts)

theorem forall_mem_ofTexts {P : Document → Prop} {texts : List String} (h : ∀ s, P (text s)) :
    ∀ d ∈ texts.map text, P d := by
  intro d hd
  obtain ⟨s, -, rfl⟩ := List.mem_map.mp hd
  exact h s

theorem Plain.proper (h : Plain d) : Proper d := by
  cases h with
  | text s => exact .text s
  | boolean b => exact .boolean b
  | texts texts => exact .list (forall_mem_ofTexts .text)

theorem Plain.withoutReals (h : Plain d) : WithoutReals d := by
  cases h with
  | text s => exact .text s
  | boolean b => exact .boolean b
  | texts texts => exact .list (forall_mem_ofTexts .text)

theorem Plain.depth_le (h : Plain d) : d.depth ≤ 1 := by
  cases h with
  | text s => exact Nat.zero_le 1
  | boolean b => exact Nat.zero_le 1
  | texts texts =>
    exact Nat.succ_le_succ (depthItems_le_iff.mpr (forall_mem_ofTexts fun _ => Nat.le_refl 0))

end Document

namespace Metadata

open Document

theorem mem_insert {name : String} {d : Document} {m : Metadata} {e : String × Document}
    (h : e ∈ insert name d m) : e = (name, d) ∨ e ∈ m := by
  induction m with
  | nil => exact Or.inl (List.mem_singleton.mp h)
  | cons x rest ih =>
    rw [insert] at h
    split at h
    · exact List.mem_cons.mp h
    · split at h
      · rcases List.mem_cons.mp h with rfl | h
        · exact Or.inl rfl
        · exact Or.inr (List.mem_cons_of_mem x h)
      · rcases List.mem_cons.mp h with rfl | h
        · exact Or.inr List.mem_cons_self
        · exact (ih h).imp_right (List.mem_cons_of_mem x)

theorem mem_ofFields {fields : List (String × Document)} {e : String × Document}
    (h : e ∈ ofFields fields) : e ∈ fields := by
  have hall : ∀ m : Metadata, e ∈ fields.foldl (fun m f => m.insert f.1 f.2) m → e ∈ m ∨
      e ∈ fields := by
    clear h
    induction fields with
    | nil => exact fun m h => Or.inl h
    | cons f rest ih =>
      intro m h
      rcases ih _ h with h | h
      · rcases mem_insert h with rfl | h
        · exact Or.inr List.mem_cons_self
        · exact Or.inl h
      · exact Or.inr (List.mem_cons_of_mem f h)
  rcases hall [] h with h | h
  · exact absurd h List.not_mem_nil
  · exact h

theorem lookup_insert (name : String) (d : Document) (m : Metadata) :
    (insert name d m).lookup name = some d := by
  induction m with
  | nil => simp [insert]
  | cons e m ih =>
    rw [insert]
    split
    · simp
    · split
      · simp
      · rename_i hne
        rw [List.lookup_cons, beq_false_of_ne (by simpa using hne)]
        exact ih

theorem lookup_ofFields_concat (fields : List (String × Document)) (name : String) (d : Document) :
    (ofFields (fields ++ [(name, d)])).lookup name = some d := by
  rw [ofFields, List.foldl_append]
  exact lookup_insert name d _

theorem texts_of_lookup {m : Metadata} {name : String} {texts : List String}
    (h : m.lookup name = some (ofTexts texts)) : m.texts name = texts := by
  rw [Metadata.texts, h]
  exact (List.filterMap_map).trans List.filterMap_some

theorem reread_ofTexts (texts : List String) : reread (ofTexts texts) = ofTexts texts := by
  rw [ofTexts, reread, rereadItems_eq, List.map_map]
  rfl

theorem insert_last {m : Metadata} {name : String} (d : Document) (h : ∀ e ∈ m, e.1 < name) :
    m.insert name d = m ++ [(name, d)] := by
  induction m with
  | nil => rfl
  | cons e m ih =>
    have he := h e List.mem_cons_self
    rw [insert, if_neg (lt_asymm he), if_neg (by simpa using he.ne'), ih fun e hm =>
      h e (List.mem_cons_of_mem _ hm)]
    rfl

theorem ofFields_eq_self {fields : List (String × Document)}
    (h : (fields.map Prod.fst).Pairwise (· < ·)) : ofFields fields = fields := by
  have hall : ∀ m : Metadata, ((m ++ fields).map Prod.fst).Pairwise (· < ·) →
      fields.foldl (fun m f => m.insert f.1 f.2) m = m ++ fields := by
    clear h
    induction fields with
    | nil => exact fun m _ => (List.append_nil m).symm
    | cons f rest ih =>
      intro m hm
      have hlast : ∀ e ∈ m, e.1 < f.1 := by
        intro e he
        rw [List.map_append, List.pairwise_append] at hm
        exact hm.2.2 _ (List.mem_map_of_mem he) _ List.mem_cons_self
      rw [List.foldl_cons, insert_last f.2 hlast, ih (m ++ [f]) (by simpa using hm)]
      simp
  exact hall [] h

theorem orderedItems_eq_map (items : List Document) : orderedItems items = items.map ordered := by
  induction items with
  | nil => rfl
  | cons d items ih => rw [orderedItems, ih, List.map_cons]

theorem orderedFields_eq_map (fields : List (String × Document)) :
    orderedFields fields = fields.map fun e => (e.1, ordered e.2) := by
  induction fields with
  | nil => rfl
  | cons e fields ih => rw [orderedFields, ih, List.map_cons]

theorem orderedFields_reread {fields : List (String × Document)}
    (hnames : (fields.map Prod.fst).Pairwise (· < ·))
    (h : ∀ e ∈ fields, ordered (reread e.2) = reread e.2) :
    ofFields (orderedFields (rereadFields fields)) = rereadFields fields := by
  have hfields : orderedFields (rereadFields fields) = rereadFields fields := by
    rw [rereadFields_eq, orderedFields_eq_map, List.map_map]
    exact List.map_congr_left fun e he => Prod.ext rfl (h e he)
  rw [hfields, ofFields_eq_self]
  rwa [rereadFields_eq, List.map_map]

theorem ordered_reread {d : Document} (h : Proper d) : ordered (reread d) = reread d := by
  induction h with
  | null => rfl
  | boolean b => rfl
  | integer hn => rfl
  | real x => rfl
  | text s => rfl
  | list _ ih =>
    rw [reread, ordered, rereadItems_eq, orderedItems_eq_map, List.map_map]
    exact congrArg Document.list (List.map_congr_left ih)
  | record hnames _ ih => rw [reread, ordered, orderedFields_reread hnames ih]

/-- Metadata is decoded as it is kept. -/
theorem ofDocument?_reread {m : Metadata} (h : Proper (record m)) :
    ofDocument? (reread (record m)) = some (rereadFields m) := by
  cases h with
  | record hnames h =>
    exact congrArg some (orderedFields_reread hnames fun e he => ordered_reread (h e he))

theorem insert_pairwise {m : Metadata} (name : String) (d : Document)
    (h : (m.map Prod.fst).Pairwise (· < ·)) :
    ((m.insert name d).map Prod.fst).Pairwise (· < ·) := by
  induction m with
  | nil => exact List.pairwise_singleton _ _
  | cons e m ih =>
    have hcons := h
    rw [List.map_cons, List.pairwise_cons] at hcons
    obtain ⟨hfirst, hrest⟩ := hcons
    rw [insert]
    split
    · rename_i hlt
      refine List.pairwise_cons.mpr ⟨fun n hn => ?_, h⟩
      cases List.mem_cons.mp hn with
      | inl hn => exact hn ▸ hlt
      | inr hn => exact lt_trans hlt (hfirst n hn)
    · rename_i hlt
      split
      · rename_i heq
        rw [beq_iff_eq] at heq
        exact List.pairwise_cons.mpr ⟨heq ▸ hfirst, hrest⟩
      · rename_i hne
        refine List.pairwise_cons.mpr ⟨fun n hn => ?_, ih hrest⟩
        obtain ⟨x, hx, rfl⟩ := List.mem_map.mp hn
        cases mem_insert hx with
        | inl hx => exact hx ▸ lt_of_le_of_ne (not_lt.mp hlt) fun he => hne (beq_iff_eq.mpr he.symm)
        | inr hx => exact hfirst x.1 (List.mem_map_of_mem hx)

theorem ofFields_pairwise (fields : List (String × Document)) :
    ((ofFields fields).map Prod.fst).Pairwise (· < ·) := by
  have hall : ∀ m : Metadata, (m.map Prod.fst).Pairwise (· < ·) →
      ((fields.foldl (fun m f => m.insert f.1 f.2) m).map Prod.fst).Pairwise (· < ·) := by
    induction fields with
    | nil => exact fun _ hm => hm
    | cons f rest ih => exact fun m hm => ih _ (insert_pairwise f.1 f.2 hm)
  exact hall [] List.Pairwise.nil

/-- Data that is the same again when it was kept as text: it has no real numbers and is not nested
too deep. -/
structure Lasting (m : Metadata) : Prop where
  proper : Proper (record m)
  withoutReals : WithoutReals (record m)
  depth : (record m).depth ≤ nestingLimit

theorem lasting_of_plain {m : Metadata} (hnames : (m.map Prod.fst).Pairwise (· < ·))
    (h : ∀ e ∈ m, Plain e.2) : m.Lasting where
  proper := .record hnames fun e he => (h e he).proper
  withoutReals := .record fun e he => (h e he).withoutReals
  depth := by
    have hfields : depthFields m ≤ 1 := depthFields_le_iff.mpr fun e he => (h e he).depth_le
    exact le_trans (Nat.succ_le_succ hfields) (by decide)

theorem lasting_ofFields {fields : List (String × Document)} (h : ∀ e ∈ fields, Plain e.2) :
    (ofFields fields).Lasting :=
  lasting_of_plain (ofFields_pairwise fields) fun e he => h e (mem_ofFields he)

end Metadata

end CodeAtlas
