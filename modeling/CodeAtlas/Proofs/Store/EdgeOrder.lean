import CodeAtlas.Proofs.Store.LastWrite
import CodeAtlas.Proofs.Store.Removal

/-!
The order of the dependencies in a store. Whatever calls were made, they stand in the order in which
they came in since they were last removed, each as it was last written; and what is read is the
front of those that are chosen.
-/

namespace CodeAtlas.Store

/-- What happens to the dependencies of a store. -/
inductive EdgeEvent where
  | put (d : Dependency)
  /-- The dependencies that start or end at one of some ids go. -/
  | drop (ids : List String)
  | clear

namespace EdgeEvent

/-- Whether a dependency is written under a key. -/
def Puts (k : String × String × Relationship) : EdgeEvent → Prop
  | put d => d.key = k
  | _ => False

/-- Whether the dependency with a key goes. -/
def Removes (k : String × String × Relationship) : EdgeEvent → Prop
  | put _ => False
  | drop ids => k.1 ∈ ids ∨ k.2.1 ∈ ids
  | clear => True

end EdgeEvent

section History

variable {P : List EdgeEvent → EdgeEvent → Prop} {Q : EdgeEvent → Prop} {events : List EdgeEvent}
  {e : EdgeEvent} {d : Dependency} {k : String × String × Relationship} {i j : Nat}

/-- Whether something has been so of all events since one that, with the events before it, was of
some kind. -/
def Since (P : List EdgeEvent → EdgeEvent → Prop) (Q : EdgeEvent → Prop) (events : List EdgeEvent) :
    Prop :=
  ∃ before e after, events = before ++ e :: after ∧ P before e ∧ ∀ later ∈ after, Q later

/-- Whether there is a dependency with a key: one was written and not removed since. -/
def Present (k : String × String × Relationship) (events : List EdgeEvent) : Prop :=
  Since (fun _ e => e.Puts k) (fun later => ¬ later.Removes k) events

/-- Whether the dependency with a key came in with an event and was not removed since. -/
def CameIn (k : String × String × Relationship) (i : Nat) (events : List EdgeEvent) : Prop :=
  Since (fun before e => before.length = i ∧ e.Puts k ∧ ¬ Present k before)
    (fun later => ¬ later.Removes k) events

/-- Whether a dependency is the one that was last written under its key, and was not removed
since. -/
def Latest (d : Dependency) (events : List EdgeEvent) : Prop :=
  Since (fun _ e => e = .put d) (fun later => ¬ later.Puts d.key ∧ ¬ later.Removes d.key) events

/-- Whether some dependencies are those that are left by events: each as it was last written, in the
order in which they came in. -/
structure LeftBy (events : List EdgeEvent) (edges : List Dependency) : Prop where
  latest : ∀ d, d ∈ edges ↔ Latest d events
  order : (edges.map Dependency.key).Pairwise fun k k' => ∃ i j, CameIn k i events ∧
    CameIn k' j events ∧ i < j

theorem not_since_nil : ¬ Since P Q [] := by
  rintro ⟨before, e, after, h, -⟩
  exact absurd h (by simp)

theorem since_concat : Since P Q (events ++ [e]) ↔ P events e ∨ (Since P Q events ∧ Q e) := by
  constructor
  · rintro ⟨before, first, after, h, hfirst, hafter⟩
    rcases concat_eq_append_cons.mp h with ⟨-, rfl, rfl⟩ | ⟨fewer, rfl, rfl⟩
    · exact Or.inl hfirst
    · refine Or.inr ⟨⟨before, first, fewer, rfl, hfirst, fun later hl => ?_⟩, ?_⟩
      · exact hafter later (List.mem_append_left _ hl)
      · exact hafter e (List.mem_append_right _ (List.mem_singleton_self _))
  · rintro (h | ⟨⟨before, first, after, rfl, hfirst, hafter⟩, h⟩)
    · exact ⟨events, e, [], rfl, h, nofun⟩
    · refine ⟨before, first, after ++ [e], List.append_assoc before (first :: after) [e], hfirst,
        fun later hl => ?_⟩
      rcases List.mem_append.mp hl with hl | hl
      · exact hafter later hl
      · exact List.mem_singleton.mp hl ▸ h

theorem present_concat :
    Present k (events ++ [e]) ↔ e.Puts k ∨ (Present k events ∧ ¬ e.Removes k) :=
  since_concat

theorem cameIn_concat : CameIn k i (events ++ [e]) ↔
    (events.length = i ∧ e.Puts k ∧ ¬ Present k events) ∨ (CameIn k i events ∧ ¬ e.Removes k) :=
  since_concat

theorem latest_concat : Latest d (events ++ [e]) ↔
    e = .put d ∨ (Latest d events ∧ ¬ e.Puts d.key ∧ ¬ e.Removes d.key) :=
  since_concat

theorem EdgeEvent.not_removes_of_puts (h : e.Puts k) : ¬ e.Removes k := by
  cases e with
  | put d => exact not_false
  | drop ids => exact absurd h not_false
  | clear => exact absurd h not_false

theorem Latest.present (h : Latest d events) : Present d.key events := by
  obtain ⟨before, e, after, rfl, rfl, hafter⟩ := h
  exact ⟨before, .put d, after, rfl, rfl, fun later hl => (hafter later hl).2⟩

theorem Present.exists_latest (h : Present k events) : ∃ d, d.key = k ∧ Latest d events := by
  induction events using List.reverseRecOn with
  | nil => exact absurd h not_since_nil
  | append_singleton events e ih =>
    by_cases hputs : e.Puts k
    · cases e with
      | put d => exact ⟨d, hputs, latest_concat.mpr (Or.inl rfl)⟩
      | drop ids => exact absurd hputs not_false
      | clear => exact absurd hputs not_false
    · rcases present_concat.mp h with h | ⟨h, hkept⟩
      · exact absurd h hputs
      · obtain ⟨d, rfl, hd⟩ := ih h
        exact ⟨d, rfl, latest_concat.mpr (Or.inr ⟨hd, hputs, hkept⟩)⟩

/-- Whatever is present came in at some time. -/
theorem Present.exists_cameIn (h : Present k events) : ∃ i < events.length, CameIn k i events := by
  induction events using List.reverseRecOn with
  | nil => exact absurd h not_since_nil
  | append_singleton events e ih =>
    rw [List.length_append]
    by_cases hbefore : Present k events
    · obtain ⟨i, hi, hcame⟩ := ih hbefore
      have hkept : ¬ e.Removes k := by
        rcases present_concat.mp h with h | ⟨-, h⟩
        · exact EdgeEvent.not_removes_of_puts h
        · exact h
      exact ⟨i, Nat.lt_add_right _ hi, cameIn_concat.mpr (Or.inr ⟨hcame, hkept⟩)⟩
    · have hputs : e.Puts k := (present_concat.mp h).resolve_right fun h => hbefore h.1
      exact ⟨events.length, by simp, cameIn_concat.mpr (Or.inl ⟨rfl, hputs, hbefore⟩)⟩

theorem CameIn.present (h : CameIn k i events) : Present k events := by
  obtain ⟨before, e, after, rfl, ⟨-, hputs, -⟩, hafter⟩ := h
  exact ⟨before, e, after, rfl, hputs, hafter⟩

/-- What is present came in at one time. -/
theorem CameIn.unique (h : CameIn k i events) (h' : CameIn k j events) : i = j := by
  induction events using List.reverseRecOn with
  | nil => exact absurd h not_since_nil
  | append_singleton events e ih =>
    rcases cameIn_concat.mp h with ⟨hi, -, hnew⟩ | ⟨h, -⟩
    · rcases cameIn_concat.mp h' with ⟨hj, -⟩ | ⟨h', -⟩
      · exact hi.symm.trans hj
      · exact absurd h'.present hnew
    · rcases cameIn_concat.mp h' with ⟨-, -, hnew⟩ | ⟨h', -⟩
      · exact absurd h.present hnew
      · exact ih h h'

end History

namespace LeftBy

variable {events : List EdgeEvent} {edges earlier later : List Dependency} {d old : Dependency}
  {e : EdgeEvent} {k : String × String × Relationship}

theorem nil : LeftBy [] [] where
  latest := fun _ => ⟨nofun, fun h => absurd h not_since_nil⟩
  order := List.Pairwise.nil

theorem keys (h : LeftBy events edges) : (edges.map Dependency.key).Nodup := by
  refine h.order.imp ?_
  rintro k k' ⟨i, j, hi, hj, hlt⟩ rfl
  exact hlt.ne (hi.unique hj)

theorem key_ne (h : LeftBy events (earlier ++ old :: later)) :
    ∀ x ∈ earlier ++ later, old.key ≠ x.key := by
  have hkeys := h.keys
  rw [List.map_append, List.map_cons, List.nodup_middle, List.nodup_cons, ← List.map_append]
    at hkeys
  exact fun x hx hkey => hkeys.1 (hkey ▸ List.mem_map_of_mem hx)

theorem mem_keys (h : LeftBy events edges) : k ∈ edges.map Dependency.key ↔ Present k events := by
  rw [List.mem_map]
  constructor
  · rintro ⟨d, hd, rfl⟩
    exact ((h.latest d).mp hd).present
  · intro hk
    obtain ⟨d, rfl, hd⟩ := hk.exists_latest
    exact ⟨d, (h.latest d).mpr hd, rfl⟩

/-- An event that does not remove the dependencies leaves them in their order. -/
theorem order_concat (h : LeftBy events edges) (he : ∀ k, ¬ e.Removes k) :
    (edges.map Dependency.key).Pairwise fun k k' =>
      ∃ i j, CameIn k i (events ++ [e]) ∧ CameIn k' j (events ++ [e]) ∧ i < j := by
  refine h.order.imp ?_
  rintro k k' ⟨i, j, hi, hj, hlt⟩
  exact ⟨i, j, cameIn_concat.mpr (Or.inr ⟨hi, he k⟩), cameIn_concat.mpr (Or.inr ⟨hj, he k'⟩), hlt⟩

/-- A dependency with a new key goes to the end. -/
theorem put_new (h : LeftBy events edges) (hd : d.key ∉ edges.map Dependency.key) :
    LeftBy (events ++ [.put d]) (edges ++ [d]) where
  latest := by
    intro x
    rw [latest_concat, List.mem_append, List.mem_singleton, h.latest, or_comm]
    refine or_congr ⟨fun hx => hx ▸ rfl, fun hx => (EdgeEvent.put.inj hx).symm⟩ ?_
    refine ⟨fun hx => ⟨hx, fun hkey => ?_, not_false⟩, fun hx => hx.1⟩
    exact hd (hkey ▸ h.mem_keys.mpr hx.present)
  order := by
    rw [List.map_append, List.pairwise_append]
    refine ⟨h.order_concat fun _ => not_false, List.pairwise_singleton _ _, ?_⟩
    intro k hk k' hk'
    obtain rfl := List.mem_singleton.mp hk'
    obtain ⟨i, hi, hcame⟩ := (h.mem_keys.mp hk).exists_cameIn
    exact ⟨i, events.length, cameIn_concat.mpr (Or.inr ⟨hcame, not_false⟩),
      cameIn_concat.mpr (Or.inl ⟨rfl, rfl, fun hp => hd (h.mem_keys.mpr hp)⟩), hi⟩

/-- A dependency goes where the one with its key was. -/
theorem put_over (h : LeftBy events (earlier ++ old :: later)) (hd : old.key = d.key) :
    LeftBy (events ++ [.put d]) (earlier ++ d :: later) where
  latest := by
    intro x
    have hothers : ∀ x ∈ earlier ++ later, d.key ≠ x.key := hd ▸ h.key_ne
    rw [latest_concat, ← h.latest, List.mem_append, List.mem_cons, List.mem_append, List.mem_cons]
    constructor
    · rintro (hx | rfl | hx)
      · exact Or.inr ⟨Or.inl hx, hothers x (List.mem_append_left _ hx), not_false⟩
      · exact Or.inl rfl
      · exact Or.inr ⟨Or.inr (Or.inr hx), hothers x (List.mem_append_right _ hx), not_false⟩
    · rintro (hx | ⟨hx | rfl | hx, hkey, -⟩)
      · exact Or.inr (Or.inl (EdgeEvent.put.inj hx).symm)
      · exact Or.inl hx
      · exact absurd hd.symm hkey
      · exact Or.inr (Or.inr hx)
  order := by
    have hkeys : (earlier ++ d :: later).map Dependency.key =
        (earlier ++ old :: later).map Dependency.key := by
      rw [List.map_append, List.map_append, List.map_cons, List.map_cons, hd]
    rw [hkeys]
    exact h.order_concat fun _ => not_false

/-- Dependencies that go leave the others in their order. -/
theorem remove (h : LeftBy events edges) (e : EdgeEvent) (he : ∀ k, ¬ e.Puts k)
    {kept : Dependency → Bool} (hkept : ∀ d, kept d = true ↔ ¬ e.Removes d.key) :
    LeftBy (events ++ [e]) (edges.filter kept) where
  latest := by
    intro x
    rw [List.mem_filter, h.latest, hkept, latest_concat]
    constructor
    · rintro ⟨hx, hstays⟩
      exact Or.inr ⟨hx, he x.key, hstays⟩
    · rintro (rfl | ⟨hx, -, hstays⟩)
      · exact absurd rfl (he x.key)
      · exact ⟨hx, hstays⟩
  order := by
    rw [List.pairwise_map, List.pairwise_filter]
    refine (List.pairwise_map.mp h.order).imp ?_
    rintro d d' ⟨i, j, hi, hj, hlt⟩ hd hd'
    exact ⟨i, j, cameIn_concat.mpr (Or.inr ⟨hi, (hkept d).mp hd⟩),
      cameIn_concat.mpr (Or.inr ⟨hj, (hkept d').mp hd'⟩), hlt⟩

end LeftBy

section Calls

open Tables

variable {s s' : Store} {events : List EdgeEvent} {written : List Dependency} {call : Call}
  {length : Nat}

def Call.edgeEvents (s : Store) : Call → List EdgeEvent
  | insert chunks _ g => (g.edges.filter fun e => chunks.any fun c => e.touches c.id).map .put
  | delete path => [.drop ((s.rowsOf path).map fun r => r.chunk.id)]
  | sync g => .clear :: g.edges.map .put
  | record _ _ => []

def edgeHistory (s : Store) : List Call → List EdgeEvent
  | [] => []
  | call :: calls => call.edgeEvents s ++ edgeHistory (call.apply s).1 calls

/-- Whether the rows of a store are those of the dependencies that are left by events. -/
def RowsLeftBy (events : List EdgeEvent) (rows : List EdgeRow) : Prop :=
  ∃ written, rows = written.map EdgeRow.ofEdge ∧ LeftBy events written

theorem Tables.putRow_middle {row r : EdgeRow} {before after : List EdgeRow} (hr : r.key = row.key)
    (hbefore : ∀ x ∈ before, x.key ≠ row.key) :
    putRow row (before ++ r :: after) = before ++ row :: after := by
  induction before with
  | nil => exact if_pos (by simpa using hr)
  | cons x rest ih =>
    obtain ⟨hx, hrest⟩ := List.forall_mem_cons.mp hbefore
    rw [List.cons_append, putRow, if_neg (by simpa using hx), ih hrest]
    rfl

theorem RowsLeftBy.put {rows : List EdgeRow} (h : RowsLeftBy events rows) (d : Dependency) :
    RowsLeftBy (events ++ [.put d]) (putRow (EdgeRow.ofEdge d) rows) := by
  obtain ⟨written, rfl, h⟩ := h
  by_cases hd : d.key ∈ written.map Dependency.key
  · obtain ⟨old, hold, hkey⟩ := List.mem_map.mp hd
    obtain ⟨earlier, later, rfl⟩ := List.append_of_mem hold
    refine ⟨earlier ++ d :: later, ?_, h.put_over hkey⟩
    rw [List.map_append, List.map_cons, List.map_append, List.map_cons]
    refine Tables.putRow_middle (congrArg rowKey hkey) fun r hr hr' => ?_
    obtain ⟨x, hx, rfl⟩ := List.mem_map.mp hr
    have hsame : x.key = d.key := rowKey_injective hr'
    exact h.key_ne x (List.mem_append_left _ hx) (hkey.trans hsame.symm)
  · refine ⟨written ++ [d], ?_, h.put_new hd⟩
    rw [List.map_append]
    refine putRow_new fun r hr hr' => ?_
    obtain ⟨x, hx, rfl⟩ := List.mem_map.mp hr
    have hsame : x.key = d.key := rowKey_injective hr'
    exact hd (hsame ▸ List.mem_map_of_mem hx)

theorem RowsLeftBy.putAll {rows : List EdgeRow} (h : RowsLeftBy events rows)
    (edges : List Dependency) :
    RowsLeftBy (events ++ edges.map .put)
      (edges.foldl (fun rows d => putRow (EdgeRow.ofEdge d) rows) rows) := by
  induction edges generalizing events rows with
  | nil => rwa [List.map_nil, List.append_nil]
  | cons d rest ih =>
    rw [List.map_cons, List.append_cons]
    exact ih (h.put d)

theorem RowsLeftBy.clear {rows : List EdgeRow} (h : RowsLeftBy events rows) :
    RowsLeftBy (events ++ [.clear]) [] := by
  obtain ⟨written, -, h⟩ := h
  have hleft : LeftBy (events ++ [.clear]) (written.filter fun _ => false) :=
    h.remove .clear (fun _ => not_false) fun _ => ⟨nofun, fun hstays => absurd trivial hstays⟩
  rw [List.filter_false] at hleft
  exact ⟨[], rfl, hleft⟩

theorem RowsLeftBy.drop {rows : List EdgeRow} (h : RowsLeftBy events rows) {ids : List String}
    {kept : EdgeRow → Bool} (hkept : ∀ r, kept r = true ↔
      r.edge.source ∉ ids ∧ r.edge.target ∉ ids) :
    RowsLeftBy (events ++ [.drop ids]) (rows.filter kept) := by
  obtain ⟨written, rfl, h⟩ := h
  have hleft : LeftBy (events ++ [.drop ids]) (written.filter (kept ∘ EdgeRow.ofEdge)) :=
    h.remove (.drop ids) (fun _ => not_false) fun d => (hkept (EdgeRow.ofEdge d)).trans not_or.symm
  exact ⟨_, List.filter_map, hleft⟩

/-- What a call that succeeds does to the rows. -/
theorem RowsLeftBy.apply (h : RowsLeftBy events s.tables.edges) (ha : call.apply s = (s', .ok ())) :
    RowsLeftBy (events ++ call.edgeEvents s) s'.tables.edges := by
  cases call with
  | insert chunks vectors g =>
    rcases insert_steps (insert_of_apply ha) with ⟨rfl, rfl⟩ | ⟨t, ht, rfl⟩
    · simpa [Call.edgeEvents] using h
    · rw [← edges_putAll ht] at h
      exact h.putAll _
  | delete path =>
    obtain rfl := (Prod.mk.inj ha).1
    rw [(fileRemoved_deleteFile s path).edges]
    refine h.drop fun r => ?_
    rw [decide_eq_true_iff, forall₂_and]
    simp [eq_comm]
  | sync g =>
    obtain rfl := (Prod.mk.inj ha).1
    show RowsLeftBy (events ++ ([.clear] ++ g.edges.map .put)) _
    rw [← List.append_assoc]
    exact h.clear.putAll g.edges
  | record path time =>
    obtain rfl := (Prod.mk.inj ha).1
    rwa [Call.edgeEvents, List.append_nil]

theorem apply_congr {t : Store} (htables : s.tables = t.tables)
    (hdimensions : s.dimensions = t.dimensions) (call : Call) :
    (call.apply s).1.tables = (call.apply t).1.tables ∧
      (call.apply s).1.dimensions = (call.apply t).1.dimensions := by
  cases call with
  | insert chunks vectors g =>
    simp only [Call.apply, Store.insert, Store.wrongLength, htables, hdimensions]
    by_cases hlen : (chunks.length != vectors.length) = true
    · simp only [if_pos hlen]
      exact ⟨htables, hdimensions⟩
    · simp only [if_neg hlen]
      cases vectors.find? fun v => v.length != t.dimensions with
      | some v => exact ⟨htables, hdimensions⟩
      | none =>
        by_cases hempty : chunks.isEmpty = true
        · simp only [if_pos hempty]
          exact ⟨htables, hdimensions⟩
        · simp only [if_neg hempty]
          cases (chunks.zip vectors).foldlM (putWithVector g) t.tables with
          | error e => exact ⟨htables, hdimensions⟩
          | ok after => exact ⟨rfl, rfl⟩
  | delete path =>
    obtain ⟨hs, hs'⟩ := deleteFile_eq s path
    obtain ⟨ht, ht'⟩ := deleteFile_eq t path
    exact ⟨hs.trans (htables ▸ ht.symm), hs'.trans (hdimensions.trans ht'.symm)⟩
  | sync g =>
    refine ⟨?_, hdimensions⟩
    show (s.sync g).tables = (t.sync g).tables
    rw [sync_tables, sync_tables, htables]
  | record path time =>
    refine ⟨?_, hdimensions⟩
    show ({ s.tables with files := putFile path time s.tables.files } : Tables) = _
    rw [htables]
    rfl

/-- What calls do to the dependencies is told by the tables. -/
theorem edgeHistory_congr {t : Store} (htables : s.tables = t.tables)
    (hdimensions : s.dimensions = t.dimensions) (calls : List Call) :
    edgeHistory s calls = edgeHistory t calls := by
  induction calls generalizing s t with
  | nil => rfl
  | cons call rest ih =>
    have hevents : call.edgeEvents s = call.edgeEvents t := by
      unfold Call.edgeEvents rowsOf
      rw [htables]
    obtain ⟨htables', hdimensions'⟩ := apply_congr htables hdimensions call
    rw [edgeHistory, edgeHistory, hevents, ih htables' hdimensions']

/-- The rows of a store are left by what the calls that succeeded did. -/
theorem Logged.rowsLeftBy {log : List (Call × Except Failure Unit)} (h : Logged s log s')
    (hs : InStep length s) (hrows : RowsLeftBy events s.tables.edges) :
    RowsLeftBy (events ++ edgeHistory s (succeeded log)) s'.tables.edges := by
  induction h generalizing events with
  | nil s => rwa [succeeded, List.filter_nil, List.map_nil, edgeHistory, List.append_nil]
  | @cons s next s' call r log hleaves hlog ih =>
    have hnext := hs.leaves hleaves
    cases r with
    | error e =>
      have htables := hleaves.tables_eq
      rw [edgeHistory_congr htables.symm (hs.dimensions.trans hnext.dimensions.symm)]
      exact ih hnext (htables ▸ hrows)
    | ok =>
      have happly : call.apply s = (next, .ok ()) := by
        cases hleaves with
        | carriedOut ha => exact ha
      have hall := ih hnext (hrows.apply happly)
      rw [List.append_assoc] at hall
      show RowsLeftBy
        (events ++ (call.edgeEvents s ++ edgeHistory (call.apply s).1 (succeeded log))) _
      rwa [happly]

end Calls

/-- Whether two dependencies have the same values, with or without a sign of zero. -/
def SameValues (e d : Dependency) : Prop :=
  e = { d with strength := e.strength } ∧
    (e.strength = d.strength ∨ (e.strength == 0 ∧ d.strength == 0))

theorem sameValues_keptEdge (d : Dependency) : SameValues (keptEdge d) d := by
  refine ⟨rfl, ?_⟩
  show keptReal d.strength = d.strength ∨ (keptReal d.strength == 0 ∧ d.strength == 0)
  unfold keptReal
  split
  · rename_i hzero
    exact Or.inr ⟨by decide, hzero⟩
  · exact Or.inl rfl

namespace EdgeFilter

def Matches (f : EdgeFilter) (e : Dependency) : Prop :=
  (∀ id ∈ f.source, e.source = id) ∧ (∀ id ∈ f.target, e.target = id) ∧ ∀ r ∈ f.relationship,
  e.relationship = r

instance (f : EdgeFilter) (e : Dependency) : Decidable (f.Matches e) :=
  inferInstanceAs (Decidable (_ ∧ _ ∧ _))

theorem cut_map {α β : Type} (f : EdgeFilter) (g : α → β) (rows : List α) :
    f.cut (rows.map g) = (f.cut rows).map g := by
  unfold cut
  split
  · exact List.map_take.symm
  · rfl

theorem accepts_ofEdge (f : EdgeFilter) (d : Dependency) :
    f.accepts (EdgeRow.ofEdge d) = decide (f.Matches (keptEdge d)) := by
  have hlabel : ∀ r : Relationship, (r.label == d.relationship.label) = true ↔ d.relationship = r :=
    fun r =>
    beq_iff_eq.trans ⟨fun h => (Tables.label_inj h).symm, fun h => h ▸ rfl⟩
  rw [Bool.eq_iff_iff, decide_eq_true_iff, accepts, Bool.and_eq_true, Bool.and_eq_true, and_assoc,
    Option.all_eq_true, Option.all_eq_true, Option.all_eq_true]
  refine and_congr (forall₂_congr fun id _ => ?_) (and_congr (forall₂_congr fun id _ => ?_)
    (forall₂_congr fun r _ => hlabel r))
  · exact beq_iff_eq.trans eq_comm
  · exact beq_iff_eq.trans eq_comm

end EdgeFilter

section Reading

variable {s s' : Store} {written edges : List Dependency}

/-- What is read are the first of the dependencies that a filter chooses. -/
theorem edges_eq (h : s.tables.edges = written.map EdgeRow.ofEdge) (f : EdgeFilter) :
    s.edges f = .ok (f.cut ((written.map keptEdge).filter f.Matches)) := by
  have hrows : s.tables.edges.filter f.accepts =
      (written.filter fun d => f.Matches (keptEdge d)).map EdgeRow.ofEdge := by
    rw [h, List.filter_map]
    congr 1
    exact List.filter_congr fun d _ => f.accepts_ofEdge d
  rw [edges, hrows, f.cut_map, mapM_read_ofEdge, ← f.cut_map, List.filter_map]
  rfl

theorem neighbors_eq (h : ∀ f : EdgeFilter, s.edges f = .ok (f.cut (edges.filter f.Matches)))
    (id : String) (limit : Nat) : s.neighbors id limit =
      .ok (((edges.filter (·.source = id)) ++ edges.filter (·.target = id)).take limit) := by
  have hsource : edges.filter (EdgeFilter.Matches { source := id, limit := some limit }) =
      edges.filter (·.source = id) :=
    List.filter_congr fun e _ => by simp [EdgeFilter.Matches]
  have htarget : ∀ rest, edges.filter (EdgeFilter.Matches { target := id, limit := some rest }) =
      edges.filter (·.target = id) := fun rest =>
    List.filter_congr fun e _ => by simp [EdgeFilter.Matches]
  have hrest : limit - ((edges.filter (·.source = id)).take limit).length =
      limit - (edges.filter (·.source = id)).length := by
    rw [List.length_take]
    omega
  unfold neighbors
  rw [h, hsource]
  show s.edges
    { target := id, limit := some (limit - ((edges.filter (·.source = id)).take limit).length) } >>=
      _ = _
  rw [h, htarget, hrest, List.take_append]
  rfl

/-- Where no dependency goes from an id to itself, those that start or end there start there or end
there. -/
theorem filter_touches_perm (h : ∀ e ∈ edges, e.source ≠ e.target) (id : String) :
    ((edges.filter (·.source = id)) ++ edges.filter (·.target = id)).Perm
      (edges.filter (·.touches id)) := by
  have hsource : edges.filter (·.source = id) = (edges.filter (·.touches id)).filter
      (·.source = id) := by
    rw [List.filter_filter]
    exact List.filter_congr fun e _ => by simp +contextual [Dependency.touches]
  have htarget : edges.filter (·.target = id) = (edges.filter (·.touches id)).filter fun e =>
      !decide (e.source = id) := by
    rw [List.filter_filter]
    refine List.filter_congr fun e he => ?_
    rw [Bool.eq_iff_iff, decide_eq_true_iff, Bool.and_eq_true, Bool.not_eq_true',
      decide_eq_false_iff_not]
    constructor
    · rintro rfl
      exact ⟨h e he, by simp [Dependency.touches]⟩
    · rintro ⟨hsource, htouches⟩
      simpa [Dependency.touches, hsource] using htouches
  rw [hsource, htarget]
  exact List.filter_append_perm _ _

/-- Whatever calls were made, the dependencies of a store are those that the calls left, in the
order in which they came in since they were last removed and with the values they were last written
with. A filter reads the first of those that match it, and the neighbors of an id are the first of
those that start there and then those that end there. If none goes from an id to itself, no neighbor
is read twice, and all that touch the id are read if so many may be. -/
theorem edges_logged {log : List (Call × Except Failure Unit)} {length : Nat}
    (hopen : Store.ofDimensions length = .ok s) (h : Logged s log s') :
    ∃ written kept : List Dependency, LeftBy (edgeHistory s (succeeded log)) written ∧
      List.Forall₂ SameValues kept written ∧
      (∀ f : EdgeFilter, s'.edges f = .ok (f.cut (kept.filter f.Matches))) ∧
      (∀ id limit, s'.neighbors id limit =
        .ok (((kept.filter (·.source = id)) ++ kept.filter (·.target = id)).take limit)) ∧
      ((∀ e ∈ kept, e.source ≠ e.target) → ∀ id limit, ∃ found, s'.neighbors id limit = .ok found ∧
        (found.map Dependency.key).Nodup ∧
        (kept.countP (·.touches id) ≤ limit → found.Perm (kept.filter (·.touches id)))) := by
  obtain rfl := ofDimensions_eq hopen
  obtain ⟨written, hrows, hleft⟩ := h.rowsLeftBy (inStep_empty length) ⟨[], rfl, LeftBy.nil⟩
  have hedges := edges_eq hrows
  have hneighbors := neighbors_eq hedges
  have hkeys : ((written.map keptEdge).map Dependency.key).Nodup := by
    rw [List.map_map]
    exact hleft.keys
  refine ⟨written, written.map keptEdge, hleft, ?_, hedges, hneighbors, fun hself id limit => ?_⟩
  · exact List.forall₂_map_left_iff.mpr (List.forall₂_same.mpr fun d _ => sameValues_keptEdge d)
  · have htouches := filter_touches_perm hself id
    refine ⟨_, hneighbors id limit, ?_, fun hlimit => ?_⟩
    · refine List.Nodup.sublist ((List.take_sublist _ _).map _) ((htouches.map _).nodup_iff.mpr ?_)
      exact hkeys.sublist (List.filter_sublist.map _)
    · rw [List.take_of_length_le]
      · exact htouches
      · rwa [htouches.length_eq, ← List.countP_eq_length_filter]

def callOf (source target : String) (strength : Float) : Dependency where
  source := source
  target := target
  relationship := .calls
  strength := strength
  direct := true
  required := false

def returningCalls : List Call :=
  [.insert [movedChunk "a.py", calledChunk] [[1.0], [0.5]]
    { edges := [callOf "f" "g" 0.8, callOf "g" "h" 0.8] },
    .delete "a.py", .insert [movedChunk "a.py"] [[1.0]]
      { edges := [callOf "f" "g" 0.5, callOf "g" "h" 0.5] }]

def returnedStore : Store := returningCalls.foldl (fun s c => (c.apply s).1) { dimensions := 1 }

/-- The call that was removed with its file comes in behind the other one, which is not written a
second time. -/
theorem edges_logged_returnedStore :
    Store.ofDimensions 1 = .ok { dimensions := 1 } ∧
      Logged { dimensions := 1 } (logOf { dimensions := 1 } returningCalls) returnedStore ∧
      returnedStore.edges {} = .ok [callOf "g" "h" 0.8, callOf "f" "g" 0.5] ∧
      returnedStore.neighbors "g" 1 = .ok [callOf "g" "h" 0.8] ∧
      ∃ found, returnedStore.neighbors "g" 2 = .ok found ∧
        found.Perm [callOf "g" "h" 0.8, callOf "f" "g" 0.5] := by
  have hopen : Store.ofDimensions 1 = .ok { dimensions := 1 } := rfl
  have hlogged : Logged { dimensions := 1 } (logOf { dimensions := 1 } returningCalls)
    returnedStore := logged_logOf _ _
  obtain ⟨written, kept, -, -, hedges, hneighbors, hself⟩ := edges_logged hopen hlogged
  have hread : returnedStore.edges {} = .ok [callOf "g" "h" 0.8, callOf "f" "g" 0.5] := rfl
  have hkept : kept = [callOf "g" "h" 0.8, callOf "f" "g" 0.5] := by
    have hall : kept.filter (EdgeFilter.Matches {}) = kept :=
      List.filter_eq_self.mpr fun e _ => by simp [EdgeFilter.Matches]
    have hunfiltered := hedges {}
    rw [hall] at hunfiltered
    exact Except.ok.inj (hunfiltered.symm.trans hread)
  subst hkept
  obtain ⟨found, hfound, -, hperm⟩ := hself (by decide) "g" 2
  exact ⟨hopen, hlogged, hread, hneighbors "g" 1, found, hfound, hperm (by decide)⟩

end Reading

end CodeAtlas.Store
