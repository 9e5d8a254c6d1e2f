import TypedPipeline.Keyed

/-!
# Proofs.Keyed: look-up in keyed lists

What is found stands in the list (`mem_of_find?`), what is listed is found (`has_iff`), and in a
list without repeated names every entry is found (`find?_of_mem`). A write keeps the order of the
names (`ascending_put`), and so does the collection of entries (`ascending_ofList`), in which those
without repeated names are found as before (`find?_ofList`). Entries that are in order already are
collected as they are (`ofList_of_ascending`, for sets of names `Names.ofList_of_ascending`).
-/

namespace TypedPipeline

namespace Keyed

variable {α : Type}

theorem mem_of_find? {entries : Keyed α} {name : String} {value : α}
    (h : entries.find? name = some value) : (name, value) ∈ entries := by
  induction entries with
  | nil => simp at h
  | cons head rest ih =>
      obtain ⟨key, first⟩ := head
      rw [find?_cons] at h
      split at h
      · rename_i e
        simp only [Option.some.injEq] at h
        subst e; subst h
        exact List.mem_cons_self
      · exact List.mem_cons_of_mem _ (ih h)

/-- What is found once every value has been replaced. -/
theorem find?_map {β : Type} (f : α → β) (entries : Keyed α) (name : String) :
    find? (entries.map fun e => (e.1, f e.2)) name = (entries.find? name).map f := by
  induction entries with
  | nil => rfl
  | cons head rest ih =>
      obtain ⟨key, value⟩ := head
      rw [List.map_cons, find?_cons, find?_cons, ih]
      split <;> rfl

/-- Nothing is found under a name that has been removed, and under every other name what was there. -/
theorem find?_erase (entries : Keyed α) (name other : String) :
    (entries.erase name).find? other = if name = other then none else entries.find? other := by
  induction entries with
  | nil => exact (ite_self _).symm
  | cons head rest ih =>
      obtain ⟨key, value⟩ := head
      rw [erase] at ih ⊢
      by_cases own : key = name
      · subst own
        rw [List.filter_cons_of_neg (by simp), ih, find?_cons]
        split <;> rfl
      · rw [List.filter_cons_of_pos (by simpa using own), find?_cons, find?_cons, ih]
        split
        · rename_i e
          rw [if_neg (by rintro rfl; exact own e)]
        · rfl

theorem has_eq_contains (entries : Keyed α) (name : String) :
    entries.has name = entries.names.contains name := by
  induction entries with
  | nil => rfl
  | cons head rest ih =>
      obtain ⟨key, first⟩ := head
      simp only [has, find?_cons, names, List.map_cons, List.contains_cons] at ih ⊢
      by_cases h : key = name
      · simp [h]
      · have : (name == key) = false := by simpa using fun e => h e.symm
        simp [h, this, ih]

theorem has_iff {entries : Keyed α} {name : String} :
    entries.has name = true ↔ name ∈ entries.names := by
  rw [has_eq_contains, List.contains_iff_mem]

theorem find?_eq_none_iff {entries : Keyed α} {name : String} :
    entries.find? name = none ↔ name ∉ entries.names := by
  rw [← has_iff, has]
  cases entries.find? name <;> simp

theorem ascending_pair {name name' : String} {value value' : α} :
    Ascending [(name, value), (name', value')] ↔ name < name' := by
  simp [Ascending, names]

/-- Names that ascend are met once. -/
theorem nodup_of_ascending {entries : Keyed α} (h : Ascending entries) : entries.names.Nodup :=
  h.imp fun lt e => absurd (e ▸ lt) (String.lt_irrefl _)

theorem find?_of_mem {entries : Keyed α} {name : String} {value : α} (h : entries.names.Nodup)
    (hm : (name, value) ∈ entries) : entries.find? name = some value := by
  induction entries with
  | nil => simp at hm
  | cons head rest ih =>
      obtain ⟨key, first⟩ := head
      simp only [names, List.map_cons, List.nodup_cons] at h
      rw [find?_cons]
      rcases List.mem_cons.1 hm with e | hm
      · cases e; simp
      · have ne : key ≠ name := by
          rintro rfl
          exact h.1 (List.mem_map.2 ⟨_, hm, rfl⟩)
        rw [if_neg ne]
        exact ih h.2 hm

theorem mem_names_put {entries : Keyed α} {name other : String} {value : α} :
    other ∈ (entries.put name value).names ↔ other = name ∨ other ∈ entries.names := by
  rw [← has_iff, has, find?_put, ← has_iff, has]
  by_cases h : name = other
  · simp [h]
  · simp [h, Ne.symm h]

/-- Whatever is there after a write was there before or has been written. -/
theorem mem_of_mem_put {entries : Keyed α} {name : String} {value : α} {e : String × α}
    (h : e ∈ entries.put name value) : e = (name, value) ∨ e ∈ entries := by
  induction entries with
  | nil => exact .inl (List.mem_singleton.1 h)
  | cons head rest ih =>
      obtain ⟨key, first⟩ := head
      rw [put] at h
      split at h
      · exact (List.mem_cons.1 h).imp_right (List.mem_cons_of_mem _)
      · split at h
        · exact List.mem_cons.1 h
        · rcases List.mem_cons.1 h with rfl | h
          · exact .inr List.mem_cons_self
          · exact (ih h).imp_right (List.mem_cons_of_mem _)

theorem mem_of_mem_putNew {entries : Keyed α} {name : String} {value : α} {e : String × α}
    (h : e ∈ entries.putNew name value) : e = (name, value) ∨ e ∈ entries := by
  unfold putNew at h
  split at h
  · exact .inr h
  · exact mem_of_mem_put h

/-- What is there after the writes that are wanted was there before or has been written. -/
theorem mem_of_mem_foldl_putNew (wanted : String → Bool) {entries : List (String × α)} :
    ∀ {kept : Keyed α} {e : String × α},
      e ∈ entries.foldl (fun kept e => if wanted e.1 then kept.putNew e.1 e.2 else kept) kept →
        e ∈ kept ∨ e ∈ entries ∧ wanted e.1 = true := by
  induction entries with
  | nil => exact fun h => .inl h
  | cons first rest ih =>
      intro kept e h
      rcases ih h with h | ⟨h, want⟩
      · dsimp only at h
        split at h
        · rcases mem_of_mem_putNew h with rfl | h
          · exact .inr ⟨List.mem_cons_self, ‹_›⟩
          · exact .inl h
        · exact .inl h
      · exact .inr ⟨List.mem_cons_of_mem _ h, want⟩

/-- Of two writes under one name, the second stays. -/
theorem put_put (entries : Keyed α) (name : String) (old new : α) :
    (entries.put name old).put name new = entries.put name new := by
  induction entries with
  | nil => simp [put]
  | cons head rest ih =>
      obtain ⟨key, value⟩ := head
      by_cases e : key = name
      · simp [put, e]
      · by_cases lt : name < key
        · simp [put, e, lt]
        · simp [put, e, lt, ih]

/-- Entries under one name alone are a single one. -/
theorem eq_singleton {entries : Keyed α} (ascending : Ascending entries) {name : String} {value : α}
    (h : entries.find? name = some value) (only : ∀ other ∈ entries.names, other = name) :
    entries = [(name, value)] := by
  cases entries with
  | nil => cases h
  | cons first rest =>
      obtain ⟨key, found⟩ := first
      have same : key = name := only key List.mem_cons_self
      subst same
      rw [find?_cons, if_pos rfl] at h
      cases h
      cases rest with
      | nil => rfl
      | cons second _ =>
          have later := (List.pairwise_cons.1 ascending).1 second.1 List.mem_cons_self
          rw [only second.1 (by simp [names])] at later
          exact absurd later (String.lt_irrefl key)

/-- A write keeps the order. -/
theorem ascending_put {entries : Keyed α} (h : Ascending entries) (name : String) (value : α) :
    Ascending (entries.put name value) := by
  induction entries with
  | nil => exact List.pairwise_singleton _ _
  | cons head rest ih =>
      obtain ⟨key, old⟩ := head
      obtain ⟨first, later⟩ := List.pairwise_cons.1 h
      rw [put]
      split
      · rename_i e
        exact List.pairwise_cons.2 ⟨fun n hn => e ▸ first n hn, later⟩
      · split
        · rename_i lt
          refine List.pairwise_cons.2 ⟨fun n hn => ?_, h⟩
          rcases List.mem_cons.1 hn with rfl | hn
          · exact lt
          · exact String.lt_trans lt (first n hn)
        · rename_i ne nlt
          refine List.pairwise_cons.2 ⟨fun n hn => ?_, ih later⟩
          rcases mem_names_put.1 hn with rfl | hn
          · exact Std.lt_of_le_of_ne (String.not_lt.1 nlt) ne
          · exact first n hn

/-- A name above all others comes last. -/
theorem put_of_lt {entries : Keyed α} {name : String} {value : α}
    (h : ∀ other ∈ entries.names, other < name) :
    entries.put name value = entries ++ [(name, value)] := by
  induction entries with
  | nil => rfl
  | cons head rest ih =>
      obtain ⟨key, old⟩ := head
      have lt : key < name := h key (by simp [names])
      rw [put, if_neg (fun e => String.lt_irrefl _ (e ▸ lt)), if_neg (String.lt_asymm lt),
        ih fun other ho => h other (List.mem_cons_of_mem _ ho)]
      rfl

/-- Entries that are collected are found, before those that were there, if no two have one name. -/
theorem find?_foldl_put {entries : List (String × α)} (h : (names entries).Nodup) {name : String} :
    ∀ {found : Keyed α}, (entries.foldl (fun acc e => acc.put e.1 e.2) found).find? name =
      (find? entries name).or (found.find? name) := by
  induction entries with
  | nil => simp
  | cons e rest ih =>
      intro found
      obtain ⟨key, value⟩ := e
      obtain ⟨fresh, h⟩ := List.nodup_cons.1 h
      rw [List.foldl_cons, ih h, find?_put, find?_cons]
      by_cases hk : key = name
      · subst hk
        rw [if_pos rfl, if_pos rfl, find?_eq_none_iff.2 fresh]
        rfl
      · rw [if_neg hk, if_neg hk]

theorem find?_ofList {entries : List (String × α)} (h : (names entries).Nodup) {name : String} :
    (ofList entries).find? name = find? entries name := by
  rw [ofList, find?_foldl_put h, find?_nil, Option.or_none]

/-- What is collected is in order. -/
theorem ascending_ofList (entries : List (String × α)) : Ascending (ofList entries) := by
  have collect : ∀ found : Keyed α, Ascending found →
      Ascending (entries.foldl (fun acc e => acc.put e.1 e.2) found) := by
    induction entries with
    | nil => exact fun found h => h
    | cons e rest ih => exact fun found h => ih _ (ascending_put h _ _)
  exact collect [] List.Pairwise.nil

theorem foldl_put_of_ascending {entries : List (String × α)} :
    ∀ {found : Keyed α}, Ascending (found ++ entries) →
      entries.foldl (fun acc e => acc.put e.1 e.2) found = found ++ entries := by
  induction entries with
  | nil => simp
  | cons e rest ih =>
      intro found h
      have below : ∀ other ∈ found.names, other < e.1 := by
        intro other ho
        rw [Ascending, names, List.map_append, List.pairwise_append] at h
        exact h.2.2 other ho e.1 (by simp)
      rw [List.foldl_cons, put_of_lt below, ih (by simpa using h)]
      simp

/-- **Entries in ascending order are a keyed list as they are.** -/
theorem ofList_of_ascending {entries : List (String × α)} (h : Ascending entries) :
    ofList entries = entries := @foldl_put_of_ascending α entries [] h

/-- The entries of a keyed list, found one by one under names that contain theirs. -/
theorem filterMap_find? {listed : List String} (h : listed.Pairwise (· < ·))
    {found : String → Option α} :
    ∀ {entries : Keyed α}, Ascending entries → (∀ name ∈ entries.names, name ∈ listed) →
      (∀ name ∈ listed, found name = entries.find? name) →
      listed.filterMap (fun name => (found name).map fun value => (name, value)) = entries := by
  induction listed with
  | nil =>
      intro entries _ sub _
      cases entries with
      | nil => rfl
      | cons e rest => exact absurd (sub e.1 (by simp [names])) (by simp)
  | cons first later ih =>
      intro entries ascending sub look
      obtain ⟨least, ordered⟩ := List.pairwise_cons.1 h
      by_cases hf : first ∈ entries.names
      · cases entries with
        | nil => simp [names] at hf
        | cons e rest =>
            obtain ⟨key, value⟩ := e
            obtain ⟨above, ascending'⟩ := List.pairwise_cons.1 ascending
            have same : key = first := by
              rcases List.mem_cons.1 (sub key (by simp [names])) with e | hk
              · exact e
              · rcases List.mem_cons.1 hf with e | hf
                · exact e.symm
                · exact absurd (least key hk) (String.lt_asymm (above first hf))
            subst same
            rw [List.filterMap_cons, look key List.mem_cons_self, find?_cons, if_pos rfl]
            refine congrArg _ (ih ordered ascending' (fun name hn => ?_) fun name hn => ?_)
            · rcases List.mem_cons.1 (sub name (List.mem_cons_of_mem _ hn)) with rfl | hl
              · exact absurd (above _ hn) (String.lt_irrefl _)
              · exact hl
            · have ne : key ≠ name := fun e => String.lt_irrefl key (by simpa [← e] using least name hn)
              rw [look name (List.mem_cons_of_mem _ hn), find?_cons, if_neg ne]
      · rw [List.filterMap_cons, look first List.mem_cons_self, find?_eq_none_iff.2 hf]
        refine ih ordered ascending (fun name hn => ?_) fun name hn => look name (List.mem_cons_of_mem _ hn)
        rcases List.mem_cons.1 (sub name hn) with rfl | hl
        · exact absurd hn hf
        · exact hl

end Keyed

namespace Names

/-- A name above all others comes last. -/
theorem insert_of_lt {names : Names} {name : String} (h : ∀ other ∈ names, other < name) :
    insert names name = names ++ [name] := by
  induction names with
  | nil => rfl
  | cons first rest ih =>
      have lt := h first List.mem_cons_self
      rw [insert, if_neg (fun e => String.lt_irrefl _ (e ▸ lt)), if_neg (String.lt_asymm lt),
        ih fun other ho => h other (List.mem_cons_of_mem _ ho)]
      rfl

theorem foldl_insert_of_ascending {names : List String} :
    ∀ {found : Names}, (found ++ names).Pairwise (· < ·) →
      names.foldl insert found = found ++ names := by
  induction names with
  | nil => simp
  | cons name rest ih =>
      intro found h
      have below : ∀ other ∈ found, other < name := fun other ho =>
        (List.pairwise_append.1 h).2.2 other ho name List.mem_cons_self
      rw [List.foldl_cons, insert_of_lt below, ih (by simpa using h)]
      simp

/-- A set has the names that are collected in it. -/
theorem mem_foldl_insert {names : List String} {other : String} :
    ∀ {found : Names}, other ∈ names.foldl insert found ↔ other ∈ found ∨ other ∈ names := by
  induction names with
  | nil => simp
  | cons name rest ih =>
      intro found
      rw [List.foldl_cons, ih, mem_insert, List.mem_cons, or_comm (a := other = name), or_assoc]

theorem mem_ofList {names : List String} {other : String} :
    other ∈ ofList names ↔ other ∈ names := by
  rw [ofList, mem_foldl_insert]
  simp

/-- **Names in ascending order are a set as they are.** -/
theorem ofList_of_ascending {names : List String} (h : names.Pairwise (· < ·)) :
    ofList names = names := @foldl_insert_of_ascending names [] h

end Names

end TypedPipeline
