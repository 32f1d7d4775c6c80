import CodeAtlas.Document.Reread
import CodeAtlas.Proofs.Document.Number

/-!
Documents that are read back from what is written for them. A text or a number is taken off as it
was written, lists and records by way of what they hold, whatever spaces stand between the parts, so
that it makes no difference in which of the two ways a document is written.
-/

namespace CodeAtlas.Document

section Texts

variable {s rest cs : List Char} {c : Char}

theorem hexDigit?_hexChar {n : Nat} (h : n < 16) : hexDigit? (hexChar n) = some n := by
  have hall : ∀ n < 16, hexDigit? (hexChar n) = some n := by decide
  exact hall n h

theorem hexCode?_of_lt {n : Nat} (h : n < 32) :
    hexCode? '0' '0' (hexChar (n / 16)) (hexChar (n % 16)) = some n := by
  have hzero : hexDigit? '0' = some 0 := by decide
  unfold hexCode?
  rw [hzero, hexDigit?_hexChar (by omega), hexDigit?_hexChar (by omega)]
  show some _ = some n
  congr 1
  omega

theorem takes_escaped {d : Char} (h : Takes quoted s cs rest) (hd : escaped? c = some d) :
    Takes quoted ('\\' :: c :: s) (d :: cs) rest := by
  obtain ⟨hlen, hs⟩ := h
  have hu : c ≠ 'u' := by
    rintro rfl
    exact absurd hd (by simp [escaped?])
  refine ⟨by simp only [List.length_cons]; omega, ?_⟩
  simp [quoted, hu, hd, hs]

theorem takes_coded {a b c d : Char} {n : Nat} (h : Takes quoted s cs rest)
    (hn : hexCode? a b c d = some n) (hlt : n < 0xd800) :
    Takes quoted ('\\' :: 'u' :: a :: b :: c :: d :: s) (Char.ofNat n :: cs) rest := by
  obtain ⟨hlen, hs⟩ := h
  have hlow : ¬ (decide (0xdc00 ≤ n) && decide (n < 0xe000)) = true := by simp; omega
  have hhigh : ¬ (decide (0xd800 ≤ n) && decide (n < 0xdc00)) = true := by simp; omega
  refine ⟨by simp only [List.length_cons]; omega, ?_⟩
  simp only [quoted, hn, if_neg hlow, if_neg hhigh, hs]

theorem takes_plain (h : Takes quoted s cs rest) (hmark : c ≠ '\x22') (hslash : c ≠ '\\')
    (hcontrol : ¬ c.toNat < 32) : Takes quoted (c :: s) (c :: cs) rest := by
  obtain ⟨hlen, hs⟩ := h
  refine ⟨by simp only [List.length_cons]; omega, ?_⟩
  simp [quoted, hslash, hcontrol, hs]

/-- A character is read back from what is written for it. -/
theorem takes_escape (h : Takes quoted s cs rest) :
    Takes quoted (escape c ++ s) (c :: cs) rest := by
  unfold escape
  split
  · exact takes_escaped h rfl
  · exact takes_escaped h rfl
  · exact takes_escaped h rfl
  · exact takes_escaped h rfl
  · exact takes_escaped h rfl
  · exact takes_escaped h rfl
  · exact takes_escaped h rfl
  · rename_i hmark hslash _ _ _ _ _
    split
    · rename_i hc
      have hcode := takes_coded h (hexCode?_of_lt hc) (by omega)
      rwa [Char.ofNat_toNat] at hcode
    · rename_i hc
      exact takes_plain h hmark hslash hc

theorem takes_quoted (cs rest : List Char) :
    Takes quoted (cs.flatMap escape ++ '\x22' :: rest) cs rest := by
  induction cs with
  | nil => exact ⟨Nat.lt_succ_self _, rfl⟩
  | cons c cs ih =>
    rw [List.flatMap_cons, List.append_assoc]
    exact takes_escape ih

end Texts

section Items

variable {α : Type} {item : Reader α} {close c : Char} {s rest lead trail : List Char} {a : α}
  {as : List α}

/-- Whether a text can be that of an item: it starts with no space and with no closing mark. -/
def Opens (s : List Char) : Prop :=
  ∃ c t, s = c :: t ∧ isSpace c = false ∧ c ≠ ']' ∧ c ≠ '\x7d'

def Blank (s : List Char) : Prop := ∀ c ∈ s, isSpace c = true

theorem skipSpaces_append (h : Blank s) : skipSpaces (s ++ rest) = skipSpaces rest :=
  List.dropWhile_append_of_pos h

theorem skipSpaces_of_opens (h : Opens s) : skipSpaces (s ++ rest) = s ++ rest := by
  obtain ⟨c, t, rfl, hc, -⟩ := h
  exact List.dropWhile_cons_of_neg (by simp [hc])

theorem skipSpaces_cons (h : isSpace c = false) : skipSpaces (c :: rest) = c :: rest :=
  List.dropWhile_cons_of_neg (by simp [h])

theorem takes_last (h : Takes item (skipSpaces s) a rest) {t : List Char}
    (ht : skipSpaces rest = close :: t) : Takes (itemsUntil close item) s [a] t := by
  obtain ⟨hlen, ha⟩ := h
  have hle := length_skipSpaces_le s
  have hle' := length_skipSpaces_le rest
  rw [ht, List.length_cons] at hle'
  refine ⟨by omega, ?_⟩
  fun_cases itemsUntil close item s <;> simp_all

theorem takes_more (hclose : ',' ≠ close) (h : Takes item (skipSpaces s) a rest) {t u : List Char}
    (ht : skipSpaces rest = ',' :: t) (hrest : Takes (itemsUntil close item) t as u) :
    Takes (itemsUntil close item) s (a :: as) u := by
  obtain ⟨hlen, ha⟩ := h
  obtain ⟨hlen', has⟩ := hrest
  have hle := length_skipSpaces_le s
  have hle' := length_skipSpaces_le rest
  rw [ht, List.length_cons] at hle'
  have hfirst : ∀ b (r : Rest (skipSpaces s)) c v, item (skipSpaces s) = some (b, r) →
      skipSpaces r.1 = c :: v → b = a ∧ c = ',' ∧ v = t := by
    intro b r c v hb hv
    obtain ⟨rfl, rfl⟩ := Prod.mk.inj (Option.some.inj (ha.symm.trans hb))
    obtain ⟨rfl, rfl⟩ := List.cons.inj (ht.symm.trans hv)
    exact ⟨rfl, rfl, rfl⟩
  refine ⟨by omega, ?_⟩
  fun_cases itemsUntil close item s with
  | case1 hnone => exact absurd (ha.symm.trans hnone) nofun
  | case2 b r hb hnil =>
    obtain ⟨rfl, rfl⟩ := Prod.mk.inj (Option.some.inj (ha.symm.trans hb))
    exact absurd (ht.symm.trans hnil) nofun
  | case3 b r hb c v hv hlt hc =>
    obtain ⟨-, rfl, -⟩ := hfirst b r c v hb hv
    exact absurd (beq_iff_eq.mp hc) hclose
  | case4 b r hb c v hv hlt hne hc hnone =>
    obtain ⟨-, -, rfl⟩ := hfirst b r c v hb hv
    exact absurd (has.symm.trans hnone) nofun
  | case5 b r hb c v hv hlt hne hc bs r' hbs =>
    obtain ⟨rfl, -, rfl⟩ := hfirst b r c v hb hv
    obtain ⟨rfl, rfl⟩ := Prod.mk.inj (Option.some.inj (has.symm.trans hbs))
    rfl
  | case6 b r hb c v hv hlt hne hc =>
    obtain ⟨-, rfl, -⟩ := hfirst b r c v hb hv
    exact absurd (beq_self_eq_true ',') hc

theorem closed_comma (t : List Char) : Closed (',' :: t) := by
  rintro c ⟨rfl⟩
  decide

/-- What is written for items is taken as what is read for each by itself in front of what may
follow it. -/
theorem takes_itemsUntil {β : Type} {a : β} {as : List β} {write : β → List Char} {read : β → α}
    (hlead : Blank lead) (htrail : Blank trail) (hclose : isSpace close = false)
    (hcomma : ',' ≠ close) (hclosed : ∀ t, Closed (trail ++ close :: t))
    (h : ∀ b ∈ a :: as, Opens (write b) ∧ ∀ t, Closed t → Takes item (write b ++ t) (read b) t) :
    Takes (itemsUntil close item)
      (lead ++ (joined (',' :: lead) ((a :: as).map write) ++ (trail ++ close :: rest)))
          ((a :: as).map read) rest := by
  have hskip : ∀ t b, b ∈ a :: as → skipSpaces (lead ++ (write b ++ t)) = write b ++ t := by
    intro t b hb
    rw [skipSpaces_append hlead, skipSpaces_of_opens (h b hb).1]
  induction as generalizing a with
  | nil =>
    obtain ⟨-, ha⟩ := h a List.mem_cons_self
    have hend : skipSpaces (trail ++ close :: rest) = close :: rest := by
      rw [skipSpaces_append htrail, skipSpaces_cons hclose]
    refine takes_last ?_ hend
    rw [List.map_singleton, joined, hskip _ a List.mem_cons_self]
    exact ha _ (hclosed rest)
  | cons b as ih =>
    obtain ⟨-, ha⟩ := h a List.mem_cons_self
    have hrest := ih (a := b) (fun d hd => h d (List.mem_cons_of_mem a hd))
      (fun t d hd => hskip t d (List.mem_cons_of_mem a hd))
    have htext : lead ++ (joined (',' :: lead) ((a :: b :: as).map write) ++
        (trail ++ close :: rest)) =
        lead ++ (write a ++ ',' :: (lead ++ (joined (',' :: lead) ((b :: as).map write) ++
          (trail ++ close :: rest)))) := by
      simp [joined]
    have hcomma' : ∀ t, skipSpaces (',' :: t) = ',' :: t := fun _ => skipSpaces_cons rfl
    rw [htext]
    refine takes_more hcomma ?_ (hcomma' _) hrest
    rw [hskip _ a List.mem_cons_self]
    exact ha _ (closed_comma _)

theorem takes_none (hclose : isSpace close = false) :
    Takes (itemsOrNone close item) (close :: rest) [] rest := by
  have hskip : skipSpaces (close :: rest) = close :: rest := skipSpaces_cons hclose
  refine ⟨Nat.lt_succ_self _, ?_⟩
  fun_cases itemsOrNone close item (close :: rest) <;> simp_all

theorem takes_some {t : List Char} (h : Takes (itemsUntil close item) s as rest)
    (hs : skipSpaces s = c :: t) (hc : c ≠ close) : Takes (itemsOrNone close item) s as rest := by
  obtain ⟨hlen, h⟩ := h
  refine ⟨hlen, ?_⟩
  fun_cases itemsOrNone close item s <;> simp_all

theorem closed_of_isSpace (hc : isSpace c = true) (t : List Char) : Closed (c :: t) := by
  rintro d ⟨rfl⟩
  simp only [isSpace, Bool.or_eq_true, beq_iff_eq] at hc
  rcases hc with ((rfl | rfl) | rfl) | rfl <;> decide

theorem closed_trail (htrail : Blank trail) (hclose : close = ']' ∨ close = '\x7d')
    (t : List Char) : Closed (trail ++ close :: t) := by
  cases trail with
  | nil =>
    rintro c ⟨rfl⟩
    rcases hclose with rfl | rfl <;> decide
  | cons c trail => exact closed_of_isSpace (htrail c List.mem_cons_self) _

theorem opens_joined {β : Type} {write : β → List Char} {a : β} (h : Opens (write a))
    (sep : List Char) (as : List β) : Opens (joined sep ((a :: as).map write)) := by
  obtain ⟨c, t, ha, hc⟩ := h
  cases as with
  | nil => exact ⟨c, t, ha, hc⟩
  | cons b as => exact ⟨c, _, by rw [List.map_cons, List.map_cons, joined, ha]; rfl, hc⟩

theorem Opens.exists_cons (h : Opens s) (hclose : close = ']' ∨ close = '\x7d') :
    ∃ c t, s = c :: t ∧ isSpace c = false ∧ c ≠ close := by
  obtain ⟨c, t, rfl, hc, hlist, hrecord⟩ := h
  rcases hclose with rfl | rfl
  · exact ⟨c, t, rfl, hc, hlist⟩
  · exact ⟨c, t, rfl, hc, hrecord⟩

/-- Items between brackets, with spaces in front of each and behind the last. -/
theorem takes_items {β : Type} {as : List β} {write : β → List Char} {read : β → α}
    (hlead : Blank lead) (htrail : Blank trail) (hclose : close = ']' ∨ close = '\x7d')
    (has : as ≠ []) (h : ∀ b ∈ as, Opens (write b) ∧ ∀ t, Closed t →
      Takes item (write b ++ t) (read b) t) :
    Takes (itemsOrNone close item)
      (lead ++ (joined (',' :: lead) (as.map write) ++ (trail ++ close :: rest)))
          (as.map read) rest := by
  obtain ⟨a, as, rfl⟩ := List.exists_cons_of_ne_nil has
  have hspace : isSpace close = false := by
    rcases hclose with rfl | rfl <;> rfl
  have hcomma : ',' ≠ close := by
    rcases hclose with rfl | rfl <;> decide
  have huntil : Takes (itemsUntil close item)
      (lead ++ (joined (',' :: lead) ((a :: as).map write) ++
      (trail ++ close :: rest))) ((a :: as).map read) rest :=
    takes_itemsUntil hlead htrail hspace hcomma (closed_trail htrail hclose) h
  obtain ⟨c, u, hu, hc, hne⟩ :=
    (opens_joined (h a List.mem_cons_self).1 (',' :: lead) as).exists_cons hclose
  have hskip : skipSpaces
      (lead ++ (joined (',' :: lead) ((a :: as).map write) ++ (trail ++ close :: rest))) =
      c :: (u ++ (trail ++ close :: rest)) := by
    rw [skipSpaces_append hlead, hu]
    exact skipSpaces_cons hc
  exact takes_some huntil hskip hne

end Items

section Values

variable {k : Nat} {s rest : List Char} {d : Document}

theorem takes_text (s : String) (k : Nat) (rest : List Char) :
    Takes (value k) (quote s ++ rest) (text s) rest := by
  obtain ⟨hlen, hs⟩ := takes_quoted s.toList rest
  have hquote : quote s ++ rest = '\x22' :: (s.toList.flatMap escape ++ '\x22' :: rest) := by
    simp [quote]
  rw [hquote]
  refine ⟨by rw [List.length_cons]; omega, ?_⟩
  simp [value, hs]

theorem takes_list {items : List Document} (h : Takes (itemsOrNone ']' (value k)) s items rest) :
    Takes (value (k + 1)) ('[' :: s) (list items) rest := by
  obtain ⟨hlen, hs⟩ := h
  refine ⟨by rw [List.length_cons]; omega, ?_⟩
  simp [value, hs]

theorem takes_record {fields : List (String × Document)}
    (h : Takes (itemsOrNone '\x7d' (field (value k))) s fields rest) :
    Takes (value (k + 1)) ('\x7b' :: s) (record fields) rest := by
  obtain ⟨hlen, hs⟩ := h
  refine ⟨by rw [List.length_cons]; omega, ?_⟩
  simp [value, hs]

/-- A text that a number is taken off starts with a digit or a minus sign. -/
theorem Takes.number_head (h : Takes number s d rest) :
    ∃ c t, s = c :: t ∧ (c = '-' ∨ c.isDigit = true) := by
  obtain ⟨hlen, v, hv, -⟩ := takes_number_iff.mp h
  cases s with
  | nil => exact absurd hlen (Nat.not_lt_zero _)
  | cons c s =>
    refine ⟨c, s, rfl, ?_⟩
    unfold signedPart at hv
    split at hv
    · rename_i hc
      exact Or.inl (Option.some.inj hc)
    · right
      by_contra hc
      simp [numeralPart, leadingDigits, hc] at hv

theorem Takes.opens (h : Takes number s d rest) : Opens s := by
  obtain ⟨c, t, rfl, hc⟩ := h.number_head
  refine ⟨c, t, rfl, ?_⟩
  rcases hc with rfl | hc
  · decide
  · refine ⟨?_, ?_, ?_⟩
    · by_contra hs
      have hs : isSpace c = true := by simpa using hs
      simp only [isSpace, Bool.or_eq_true, beq_iff_eq] at hs
      rcases hs with ((rfl | rfl) | rfl) | rfl <;> exact absurd hc (by decide)
    · rintro rfl
      exact absurd hc (by decide)
    · rintro rfl
      exact absurd hc (by decide)

theorem takes_value_of_number (h : Takes number s d rest) : Takes (value k) s d rest := by
  obtain ⟨c, t, rfl, hc⟩ := h.number_head
  obtain ⟨hlen, hd⟩ := h
  have hplain : c ≠ '\x22' ∧ c ≠ '[' ∧ c ≠ '\x7b' ∧ c ≠ 'n' ∧ c ≠ 't' ∧ c ≠ 'f' := by
    rcases hc with rfl | hc
    · decide
    · refine ⟨?_, ?_, ?_, ?_, ?_, ?_⟩ <;> rintro rfl <;> exact absurd hc (by decide)
  obtain ⟨hmark, hlist, hrecord, hn, ht, hf⟩ := hplain
  refine ⟨hlen, ?_⟩
  simp [value, hn, ht, hf, hd]

/-- The text of a field: the name, a colon and the text of the value, with spaces between them. -/
theorem takes_field {item : Reader Document} {gap : List Char} (name : String) (hgap : Blank gap)
    (hs : Opens s) (h : Takes item (s ++ rest) d rest) :
    Takes (field item) ((quote name ++ ':' :: (gap ++ s)) ++ rest) (name, d) rest := by
  rw [← skipSpaces_of_opens hs, ← skipSpaces_append hgap] at h
  obtain ⟨hlen, hd⟩ := h
  obtain ⟨hlen', hname⟩ := takes_quoted name.toList (':' :: (gap ++ (s ++ rest)))
  have htext : (quote name ++ ':' :: (gap ++ s)) ++ rest =
      '\x22' :: (name.toList.flatMap escape ++ '\x22' :: ':' :: (gap ++ (s ++ rest))) := by
    simp [quote]
  rw [htext]
  refine ⟨by simp; omega, ?_⟩
  unfold field
  simp only [hname]
  split
  · rename_i u hu
    obtain rfl : gap ++ (s ++ rest) = u := (List.cons.inj ((skipSpaces_cons rfl).symm.trans hu)).2
    simp only [hd, String.ofList_toList]
  · rename_i hne
    exact absurd (skipSpaces_cons rfl) (hne _)

end Values


/-- Documents that can be read from what is written for them, with lists and records nested at most
so deep. -/
inductive Legible : Nat → Document → Prop where
  | null (k : Nat) : Legible k null
  | boolean (k : Nat) (b : Bool) : Legible k (boolean b)
  | integer (k : Nat) {n : Int} : inIntegerRange n = true → Legible k (integer n)
  | real (k : Nat) {x y : Float} : Takes number (Decimal.writeFloat x) (real y) [] →
    Legible k (real x)
  | text (k : Nat) (s : String) : Legible k (text s)
  | list {k : Nat} {items : List Document} : (∀ d ∈ items, Legible k d) →
    Legible (k + 1) (list items)
  | record {k : Nat} {fields : List (String × Document)} :
      (∀ e ∈ fields, Legible k e.2) → Legible (k + 1) (record fields)

section Printing

variable {k depth : Nat} {d : Document} {s rest : List Char} {fields : List (String × Document)}
  {items : List Document}

/-- Whether a text stands for a document wherever it is written. -/
def Shows (k : Nat) (s : List Char) (d : Document) : Prop :=
  Opens s ∧ ∀ rest, Closed rest → Takes (value k) (s ++ rest) d rest

theorem parse?_of_shows (h : Shows nestingLimit s d) : parse? (String.ofList s) = some d := by
  obtain ⟨hopens, htakes⟩ := h
  have hvalue : Takes (value nestingLimit) (skipSpaces (String.ofList s).toList) d [] := by
    rw [String.toList_ofList, ← List.append_nil s, skipSpaces_of_opens hopens]
    exact htakes [] closed_nil
  obtain ⟨hlen, hd⟩ := hvalue
  unfold parse?
  rw [hd]
  rfl

theorem shows_null (k : Nat) : Shows k "null".toList null :=
  ⟨⟨_, _, rfl, by decide⟩, fun rest _ => ⟨by simp; omega, by simp [value, word]; omega⟩⟩

theorem shows_true (k : Nat) : Shows k "true".toList (boolean true) :=
  ⟨⟨_, _, rfl, by decide⟩, fun rest _ => ⟨by simp; omega, by simp [value, word]; omega⟩⟩

theorem shows_false (k : Nat) : Shows k "false".toList (boolean false) :=
  ⟨⟨_, _, rfl, by decide⟩, fun rest _ => ⟨by simp; omega, by simp [value, word]; omega⟩⟩

theorem shows_quote (k : Nat) (s : String) : Shows k (quote s) (text s) :=
  ⟨⟨_, _, rfl, by decide⟩, fun rest _ => takes_text s k rest⟩

theorem shows_number (h : Takes number s d []) : Shows k s d :=
  ⟨h.opens, fun _ hrest => takes_value_of_number (h.append hrest)⟩

theorem shows_real {x y : Float} (h : Takes number (Decimal.writeFloat x) (real y) []) :
    Shows k (Decimal.writeFloat x) (real (rereadReal x)) := by
  have hy : rereadReal x = y := by
    unfold rereadReal
    rw [parse?_of_shows (shows_number h)]
  rw [hy]
  exact shows_number h

theorem rereadItems_eq (items : List Document) : rereadItems items = items.map reread := by
  induction items with
  | nil => rfl
  | cons d items ih => rw [rereadItems, ih, List.map_cons]

theorem rereadFields_eq (fields : List (String × Document)) :
    rereadFields fields = fields.map fun e => (e.1, reread e.2) := by
  induction fields with
  | nil => rfl
  | cons e fields ih => rw [rereadFields, ih, List.map_cons]

theorem compactItems_eq (items : List Document) : compactItems items = items.map compact := by
  induction items with
  | nil => rfl
  | cons d items ih => rw [compactItems, ih, List.map_cons]

theorem compactFields_eq (fields : List (String × Document)) :
    compactFields fields = fields.map fun e => quote e.1 ++ ':' :: ([] ++ compact e.2) := by
  induction fields with
  | nil => rfl
  | cons e fields ih => rw [compactFields, ih, List.map_cons, List.nil_append]

theorem indentedItems_eq (depth : Nat) (items : List Document) :
    indentedItems depth items = items.map (indentedAt depth) := by
  induction items with
  | nil => rfl
  | cons d items ih => rw [indentedItems, ih, List.map_cons]

theorem indentedFields_eq (depth : Nat) (fields : List (String × Document)) :
    indentedFields depth fields = fields.map fun e =>
      quote e.1 ++ ':' :: ([' '] ++ indentedAt depth e.2) := by
  induction fields with
  | nil => rfl
  | cons e fields ih =>
    rw [indentedFields, ih, List.map_cons]
    simp

theorem blank_nil : Blank [] := nofun

theorem blank_space : Blank [' '] := by
  simp [Blank, isSpace]

theorem blank_newLine (depth : Nat) : Blank (newLine depth) := by
  intro c hc
  cases List.mem_cons.mp hc with
  | inl hc => rw [hc]; rfl
  | inr hc => rw [List.eq_of_mem_replicate hc]; rfl

/-- Texts between square brackets stand for the list of what they stand for. -/
theorem shows_list {write : Document → List Char} {lead trail : List Char} (hlead : Blank lead)
    (htrail : Blank trail) (hitems : items ≠ []) (h : ∀ d ∈ items, Shows k (write d) (reread d)) :
    Shows (k + 1) ('[' :: (lead ++ (joined (',' :: lead) (items.map write) ++ (trail ++ [']']))))
      (reread (list items)) := by
  refine ⟨⟨_, _, rfl, by decide⟩, fun rest _ => ?_⟩
  have htakes : Takes (itemsOrNone ']' (value k))
      (lead ++ (joined (',' :: lead) (items.map write) ++
      (trail ++ ']' :: rest))) (items.map reread) rest := takes_items hlead htrail
        (Or.inl rfl) hitems h
  rw [reread, rereadItems_eq]
  simpa using takes_list htakes

/-- Names and texts between braces stand for the record of what they stand for. -/
theorem shows_record {write : Document → List Char} {lead gap trail : List Char}
    (hlead : Blank lead) (hgap : Blank gap) (htrail : Blank trail) (hfields : fields ≠ [])
    (h : ∀ e ∈ fields, Shows k (write e.2) (reread e.2)) :
    Shows (k + 1) ('\x7b' :: (lead ++ (joined (',' :: lead)
      (fields.map fun e => quote e.1 ++ ':' :: (gap ++ write e.2)) ++ (trail ++ ['\x7d']))))
          (reread (record fields)) := by
  refine ⟨⟨_, _, rfl, by decide⟩, fun rest _ => ?_⟩
  have hall : ∀ e ∈ fields, Opens (quote e.1 ++ ':' :: (gap ++ write e.2)) ∧ ∀ t, Closed t →
      Takes (field (value k)) ((quote e.1 ++ ':' :: (gap ++ write e.2)) ++ t)
          (e.1, reread e.2) t := by
    intro e he
    obtain ⟨hopens, hvalue⟩ := h e he
    exact ⟨⟨_, _, rfl, by decide⟩, fun t ht => takes_field e.1 hgap hopens (hvalue t ht)⟩
  have htakes : Takes (itemsOrNone '\x7d' (field (value k))) (lead ++ (joined (',' :: lead)
      (fields.map fun e => quote e.1 ++ ':' :: (gap ++ write e.2)) ++ (trail ++ '\x7d' :: rest)))
      (fields.map fun e => (e.1, reread e.2)) rest :=
        takes_items hlead htrail (Or.inr rfl) hfields hall
  rw [reread, rereadFields_eq]
  simpa using takes_record htakes

theorem shows_emptyList (k : Nat) : Shows (k + 1) ['[', ']'] (list []) :=
  ⟨⟨_, _, rfl, by decide⟩, fun _ _ => takes_list (takes_none rfl)⟩

theorem shows_emptyRecord (k : Nat) : Shows (k + 1) ['\x7b', '\x7d'] (record []) :=
  ⟨⟨_, _, rfl, by decide⟩, fun _ _ => takes_record (takes_none rfl)⟩

theorem Legible.shows_compact (h : Legible k d) : Shows k d.compact (reread d) := by
  induction h with
  | null k => exact shows_null k
  | boolean k b =>
    cases b with
    | true => exact shows_true k
    | false => exact shows_false k
  | integer k hn => exact shows_number (takes_writeInteger hn)
  | real k hx => exact shows_real hx
  | text k s => exact shows_quote k s
  | @list k items _ ih =>
    rw [compact, compactItems_eq]
    by_cases hitems : items = []
    · subst hitems
      exact shows_emptyList k
    · exact shows_list blank_nil blank_nil hitems ih
  | @record k fields _ ih =>
    rw [compact, compactFields_eq]
    by_cases hfields : fields = []
    · subst hfields
      exact shows_emptyRecord k
    · exact shows_record blank_nil blank_nil blank_nil hfields ih

theorem block_eq {opening closing : Char} {pieces : List (List Char)} (h : pieces ≠ []) :
    block opening closing depth pieces = opening :: (newLine (depth + 1) ++
      (joined (',' :: newLine (depth + 1)) pieces ++ (newLine depth ++ [closing]))) := by
  have hne : ¬ pieces.isEmpty = true := by simpa using h
  unfold block
  rw [if_neg hne]
  simp

theorem Legible.shows_indentedAt (h : Legible k d) (depth : Nat) :
    Shows k (d.indentedAt depth) (reread d) := by
  induction h generalizing depth with
  | null k => exact shows_null k
  | boolean k b =>
    cases b with
    | true => exact shows_true k
    | false => exact shows_false k
  | integer k hn => exact shows_number (takes_writeInteger hn)
  | real k hx => exact shows_real hx
  | text k s => exact shows_quote k s
  | @list k items _ ih =>
    rw [indentedAt, indentedItems_eq]
    by_cases hitems : items = []
    · subst hitems
      exact shows_emptyList k
    · rw [block_eq (by simpa using hitems)]
      exact shows_list (blank_newLine _) (blank_newLine _) hitems fun d hd => ih d hd (depth + 1)
  | @record k fields _ ih =>
    rw [indentedAt, indentedFields_eq]
    by_cases hfields : fields = []
    · subst hfields
      exact shows_emptyRecord k
    · rw [block_eq (by simpa using hfields)]
      exact shows_record (blank_newLine _) blank_space (blank_newLine _) hfields fun e he =>
        ih e he (depth + 1)

/-- What a document becomes when it is kept as text on one line and read again. -/
theorem parse?_render (h : Legible nestingLimit d) : parse? d.render = some (reread d) :=
  parse?_of_shows h.shows_compact

/-- What a document becomes when it is kept as text with one item a line and read again. -/
theorem parse?_renderIndented (h : Legible nestingLimit d) :
    parse? d.renderIndented = some (reread d) :=
  parse?_of_shows (h.shows_indentedAt 0)

end Printing

end CodeAtlas.Document
